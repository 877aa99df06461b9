import Xv6.Vm.ExecStack

/-!
# `kexec` replaces a process or does nothing

The two parts of `kexec` with what they own: the pages of the calling process stay its own until the
new memory is committed, and each `goto bad` gives back what was taken.

## Main results

* `kexec_atomic`: when a call that fails leaves the process as it was
* `kexec_arguments`: the stack of the new program
* `kexec_loads`: its memory, and when that is what the file says
-/

namespace Xv6.Vm

open Hoare Function List Caller Wp Option Space

variable {ly : Layout} {sb : Fs.Superblock} {R Y : Multiset ℕ} {E : ExecHalt → Prop} {t u : Caller}
  {p : Space} {tf : ℕ} {file : List UInt8}

/-! ## The calling process -/

/-- A process that calls `exec`: its memory is a process's, and the file system is sound; `R` are the
pages of everything else. -/
structure Caller.Ok (ly : Layout) (sb : Fs.Superblock) (t : Caller) (R : Multiset ℕ) : Prop where
  space : (⟨t.sz, t.pagetable⟩ : Space).Framed ly t.trapframe t.mem ({t.trapframe} + R)
  sound : Fs.Sound sb t.fs

/-! ## The inode -/

/-- The process holds and has locked inode `ip` of the file with the bytes `file`; `s` is the file
system before the call. -/
structure Held (sb : Fs.Superblock) (s : Fs.Kernel) (u : Caller) (ip : Fs.InodeId)
    (file : List UInt8) : Prop where
  sound : Fs.Sound sb s
  locked : Fs.Locked s.begun u.fs ip (u.fs.itable ip).inum none
  safe : (s.itable ip).ref ≠ 0 ∨ (s.vol.dinode (u.fs.itable ip).inum).nlink ≠ 0
  content : s.vol.content (u.fs.itable ip).inum = file

variable {s₀ f₀ : Fs.Kernel} {ip : Fs.InodeId}

theorem release_spec (h : Held sb s₀ u ip file) : Wp (release sb (some ip)) u
    (fun _ u' => ∃ f, u' = { u with fs := f } ∧ Fs.Holding s₀.passed f none) E := by
  refine Wp.zoom_seq (h.locked.iunlockput h.sound.begun h.safe) fun _ f hf => ?_
  rw [wp_zoom]
  exact (hf.1.endOp).mono fun _ f' hf' => ⟨f', rfl, hf'⟩

theorem bad_held_spec (h : p.Framed ly tf u.mem Y) (hheld : Held sb s₀ u ip file) :
    Wp (bad ly sb (some p) (some ip)) u (fun _ u' => ∃ s f, u' = { u with mem := s, fs := f } ∧
      Fs.Holding s₀.passed f none ∧ Owned ly s Y ∧ Frame Y u.mem s) E := by
  unfold bad
  refine Wp.zoom_seq h.free ?_
  rintro _ s ⟨hown, hframe⟩
  refine (release_spec (u := { u with mem := s }) ⟨hheld.sound, hheld.locked, hheld.safe,
    hheld.content⟩).mono ?_
  rintro _ u' ⟨f, rfl, hf⟩
  exact ⟨s, f, rfl, hf, hown, hframe⟩

theorem bad_free_spec (h : p.Framed ly tf u.mem Y) :
    Wp (bad ly sb (some p) none) u (fun _ u' => ∃ s, u' = { u with mem := s } ∧
      Owned ly s Y ∧ Frame Y u.mem s) E := by
  unfold bad
  refine Wp.zoom_seq h.free ?_
  rintro _ s ⟨hown, hframe⟩
  exact ⟨s, rfl, hown, hframe⟩

/-! ## Loading -/

/-- The new memory `p` has the program of the file below page `g`. -/
structure FileImage (file : List UInt8) (elf : Elfhdr) (g : ℕ) (view : ℕ → Option UInt8) :
    Prop where
  header : elf = .decode (file.take ELFHDRSIZE)
  magic : elf.magic = ELF_MAGIC
  inFile : elf.phnum = 0 ∨ u32 elf.phoff + elf.phnum * PROGHDRSIZE ≤ file.length
  accepted : ∀ ph ∈ phdrs file elf.phnum (u32 elf.phoff), ph.type = ELF_PROG_LOAD →
    ph.Accepted file (g * PGSIZE)
  bytes : ∀ a < g * PGSIZE,
    view a = some (imageByte file a (phdrs file elf.phnum (u32 elf.phoff)) 0)

theorem uint32_int32_eq (n : ℕ) : uint32 (int32 n) = u32 n := by
  unfold uint32 int32 u32
  rw [Int.bmod_def]
  omega

theorem Space.Image.view_isSome (h : p.Image ly tf s R) {a : ℕ} (ha : a / PGSIZE < npages p.sz) :
    p.view s a = some ((p.view s a).getD 0) := by
  obtain ⟨l, hl, hu⟩ := h.full _ ha
  rw [view_of_leaf hl hu, getD_some]

/-- The content of the file that the lookup of the path has found. -/
def found (s : Fs.Kernel) (o : Option Fs.InodeId) (f : Fs.Kernel) : Option (List UInt8) :=
  o.map fun ip => s.vol.content (f.itable ip).inum

/-- What the first part of `kexec` leaves: the section has ended and no inode is held, and the new
memory is there with nothing else taken, or nothing is taken. -/
def Loaded (ly : Layout) (Y : Multiset ℕ) (file : Option (List UInt8)) (t : Caller)
    (r : Option (Elfhdr × Space)) (t' : Caller) : Prop :=
  ∃ s f, t' = { t with mem := s, fs := f } ∧ Fs.Holding t.fs.passed f none ∧ Frame Y t.mem s ∧
    r.elim (Owned ly s Y) fun w => ∃ c g, file = some c ∧
      w.2.Stacked ly t.trapframe s g Y ∧ FileImage c w.1 g (w.2.view s)

theorem loadImage_spec {path : List UInt8} {o : Option Fs.InodeId}
    (hmem : ly.pages.length < USERPAGES) (hs : Fs.Sound sb t.fs)
    (hfind : Fs.Finds sb t.fs t.proc path o f₀) (hown : Owned ly t.mem Y) :
    Wp (loadImage ly sb path) t (Loaded ly Y (found t.fs o f₀) t) E := by
  unfold loadImage
  have hnamei : Wp (Fs.namei sb t.proc path) t.fs.begun (fun o' f => o' = o ∧ f = f₀)
      fun e => E (.fs e) := by
    unfold Wp
    rw [hfind.run]
    exact ⟨rfl, rfl⟩
  rw [wp_bind, wp_zoom, Fs.beginOp, wp_modify]
  change Wp _ { t with fs := t.fs.begun } _ E
  refine Wp.get_seq (Wp.zoom_seq hnamei ?_)
  rintro o' fn ⟨rfl, rfl⟩
  rcases o' with _ | ip
  · dsimp only
    refine Wp.zoom_seq hfind.holding.endOp fun _ f' hf' => ?_
    exact ⟨t.mem, f', rfl, hf', .refl _ _, hown⟩
  dsimp only
  have hat := hfind.found ip rfl
  refine Wp.zoom_seq (hat.ilock hs.begun) fun _ f1 hlocked => ?_
  have hinum : (f1.itable ip).inum = (fn.itable ip).inum := hlocked.self
  set c := t.fs.vol.content (fn.itable ip).inum with hcdef
  have hheld : ∀ s : Mem, Held sb t.fs { t with mem := s, fs := f1 } ip c := by
    intro s
    refine ⟨hs, ?_, ?_, ?_⟩
    · rw [← hinum] at hlocked
      exact hlocked
    · dsimp only
      rw [hinum]
      exact hat.safe
    · dsimp only
      rw [hinum]
  have hcontent : Caller.content { t with fs := f1 } ip = c := by
    rw [Caller.content, hlocked.eff_eq hs.begun, hlocked.self]
    rfl
  have hc : c.length ≤ Fs.MAXFILE * BSIZE := by
    rw [hcdef, Fs.Volume.length_content]
    exact hs.owned.size_le hat.alloc
  have hfailed : ∀ (s : Mem) (f : Fs.Kernel), Owned ly s Y → Frame Y t.mem s →
      Fs.Holding t.fs.passed f none →
      Loaded ly Y (some c) t none { t with mem := s, fs := f } :=
    fun s f hs hframe hf => ⟨s, f, rfl, hf, hframe, hs⟩
  refine Wp.get_seq ?_
  dsimp only
  rw [hcontent]
  by_cases hshort : (Fs.slice c 0 ELFHDRSIZE).length ≠ ELFHDRSIZE
  · rw [if_pos hshort]
    refine (release_spec (hheld t.mem)).seq ?_
    rintro _ u ⟨f, rfl, hf⟩
    exact hfailed t.mem f hown (.refl _ _) hf
  rw [if_neg hshort]
  obtain ⟨hlen, hslice⟩ := length_slice (by decide) (not_not.mp hshort)
  rw [List.drop_zero] at hslice
  rw [hslice]
  by_cases hmagic : (Elfhdr.decode (c.take ELFHDRSIZE)).magic ≠ ELF_MAGIC
  · rw [if_pos hmagic]
    refine (release_spec (hheld t.mem)).seq ?_
    rintro _ u ⟨f, rfl, hf⟩
    exact hfailed t.mem f hown (.refl _ _) hf
  rw [if_neg hmagic]
  refine Wp.zoom_seq (procPagetable_spec hown) ?_
  rintro (_ | pt) s1 ⟨hframe1, hown1⟩
  · refine (release_spec (hheld s1)).seq ?_
    rintro _ u ⟨f, rfl, hf⟩
    exact hfailed s1 f hown1 hframe1 hf
  dsimp only at hown1 ⊢
  obtain ⟨hown1, hleafs1⟩ := hown1
  refine Wp.zoom_seq (loadLoop_spec hmem hc (.empty hown1 hleafs1)) ?_
  rintro ⟨q, ok⟩ s2 ⟨himage, hframe2, hok⟩
  dsimp only at himage hok ⊢
  have hframe2 := hframe1.trans hframe2
  cases ok with
  | false =>
    rw [if_neg Bool.false_ne_true]
    refine (bad_held_spec (u := { t with mem := s2, fs := f1 }) himage.toFramed (hheld s2)).seq ?_
    rintro _ u ⟨s3, f, rfl, hf, hown3, hframe3⟩
    exact hfailed s3 f hown3 (hframe2.trans hframe3) hf
  | true =>
    rw [if_pos rfl]
    refine (release_spec (hheld s2)).seq ?_
    rintro _ u ⟨f, rfl, hf⟩
    refine Wp.zoom_seq (stackPages_spec hmem himage) ?_
    rintro ⟨q', ok'⟩ s3 ⟨hframe3, hframed, hok'⟩
    dsimp only at hframed hok' ⊢
    have hframe3 := hframe2.trans hframe3
    cases ok' with
    | false =>
      rw [if_neg Bool.false_ne_true]
      refine (bad_free_spec (u := { t with mem := s3, fs := f }) hframed).seq ?_
      rintro _ u ⟨s4, rfl, hown4, hframe4⟩
      exact hfailed s4 f hown4 (hframe3.trans hframe4) hf
    | true =>
      rw [if_pos rfl]
      obtain ⟨hstacked, hview⟩ := hok' rfl
      obtain ⟨-, hin, hacc, hbytes⟩ := hok rfl
      rw [uint32_int32_eq] at hin hacc hbytes
      refine ⟨s3, f, rfl, hf, hframe3, c, npages q.sz, rfl, hstacked, rfl, not_not.mp hmagic, hin,
        fun ph hph ht => (hacc ph hph ht).mono (npages_le_iff.mp le_rfl), fun a ha => ?_⟩
      have hpage : a / PGSIZE < npages q.sz := (Nat.div_lt_iff_lt_mul (by decide)).mpr ha
      dsimp only
      rw [hview a ha, himage.view_isSome hpage, hbytes a, Space.view_empty hleafs1 a,
        Option.getD_none]

/-! ## Committing -/

theorem Bytes.read_write_self (b : Bytes) (off : ℕ) (l : List UInt8) :
    (b.write off l).read off l.length = l := by
  refine ext_getElem? fun j => ?_
  by_cases hj : j < l.length
  · rw [Bytes.getElem?_read _ hj, Bytes.write, if_pos (by omega), Nat.add_sub_cancel_left,
      getD_eq_getElem?_getD, getElem?_eq_getElem hj, getD_some]
  · rw [getElem?_eq_none (by rw [Bytes.length_read]; omega),
      getElem?_eq_none (by omega)]

theorem Bytes.read_write_of_disjoint (b : Bytes) {off off' n : ℕ} (l : List UInt8)
    (h : off + l.length ≤ off' ∨ off' + n ≤ off) : (b.write off l).read off' n = b.read off' n := by
  refine map_congr_left fun k hk => ?_
  rw [mem_range'_1] at hk
  rw [Bytes.write, if_neg (by omega)]

def Caller.reg (t : Caller) (off : ℕ) : List UInt8 := (t.mem.data t.trapframe).read off 8

theorem length_wordBytes (n : ℕ) : (wordBytes n).length = 8 := by
  rw [wordBytes, length_map, length_range]

theorem Space.Wf.view_frame {s s' : Mem} (h : p.Wf ly s R)
    (hframe : Frame (leafPages p.pagetable.leafs) s s') : p.view s' = p.view s := by
  funext a
  unfold view
  rcases hl : p.pagetable.leafs (a / PGSIZE) with _ | l
  · rfl
  dsimp only
  split
  · next hu =>
    have hlt : a / PGSIZE < USERPAGES := by
      by_contra hge
      rw [h.high _ l (by omega) hl] at hu
      cases hu
    rw [hframe.data l.pa (mem_leafPages hlt hl)]
  · rfl

/-- The process `t'` that `exec` has made of `t`, for the new memory `p` with the stack pointer
`sp`. -/
structure Caller.Became (ly : Layout) (R : Multiset ℕ) (path : List UInt8) (elf : Elfhdr)
    (p : Space) (g sp : ℕ) (view : ℕ → Option UInt8) (t t' : Caller) : Prop where
  eq : t' = { t with
    mem := t'.mem, sz := p.sz, pagetable := p.pagetable
    name := copyName t.name fun i => (lastElem path path).getD i 0 }
  stacked : p.Stacked ly t.trapframe t'.mem g ({t.trapframe} + R)
  frame : Frame R t.mem t'.mem
  view : p.view t'.mem = view
  a1 : t'.reg A1 = wordBytes sp
  sp : t'.reg SP = wordBytes sp
  epc : t'.reg EPC = wordBytes elf.entry

variable {view : ℕ → Option UInt8} {path : List UInt8} {elf : Elfhdr} {t' : Caller} {g sp : ℕ}

theorem Caller.Became.sz_eq (h : t.Became ly R path elf p g sp view t') : t'.sz = p.sz := by
  rw [h.eq]

theorem Caller.Became.space_eq (h : t.Became ly R path elf p g sp view t') :
    (⟨t'.sz, t'.pagetable⟩ : Space) = p := by rw [h.eq]

theorem regs_spec (b : Bytes) (x y z : ℕ) :
    let b' := ((b.write A1 (wordBytes x)).write EPC (wordBytes y)).write SP (wordBytes z)
    b'.read A1 8 = wordBytes x ∧ b'.read SP 8 = wordBytes z ∧ b'.read EPC 8 = wordBytes y := by
  have hself : ∀ (c : Bytes) (off n : ℕ), (c.write off (wordBytes n)).read off 8 = wordBytes n := by
    intro c off n
    have := Bytes.read_write_self c off (wordBytes n)
    rwa [length_wordBytes] at this
  have hother : ∀ (c : Bytes) {off off' : ℕ} (n : ℕ), off + 8 ≤ off' ∨ off' + 8 ≤ off →
      (c.write off (wordBytes n)).read off' 8 = c.read off' 8 := by
    intro c off off' n h
    exact Bytes.read_write_of_disjoint c _ (by rwa [length_wordBytes])
  refine ⟨?_, hself _ _ _, ?_⟩
  · rw [hother _ _ (by decide), hother _ _ (by decide), hself]
  · rw [hother _ _ (by decide), hself]

/-- **The commit**: the process has the new memory, and the pages of the old one are free. -/
theorem commitImage_spec {s₀ : Mem}
    (hold : (⟨t.sz, t.pagetable⟩ : Space).Framed ly t.trapframe s₀ ({t.trapframe} + R))
    (h : p.Stacked ly t.trapframe t.mem g
      (t.pagetable.tables + (leafPages t.pagetable.leafs + ({t.trapframe} + R)))) :
    Wp (commitImage ly path elf p sp) t (fun _ t' =>
      t.Became ly R path elf p g sp (p.view t.mem) t') E := by
  unfold commitImage setReg
  refine modify_seq (get_seq (modify_seq (modify_seq (modify_seq ?_))))
  rw [wp_zoom]
  dsimp only
  set b := t.mem.data t.trapframe with hb
  set b' := ((b.write A1 (wordBytes sp)).write EPC (wordBytes elf.entry)).write SP (wordBytes sp)
    with hb'
  have hfill : (((t.mem.fill t.trapframe (b.write A1 (wordBytes sp))).fill t.trapframe
      (((t.mem.fill t.trapframe (b.write A1 (wordBytes sp))).data t.trapframe).write EPC
        (wordBytes elf.entry))).fill t.trapframe
      ((((t.mem.fill t.trapframe (b.write A1 (wordBytes sp))).fill t.trapframe
        (((t.mem.fill t.trapframe (b.write A1 (wordBytes sp))).data t.trapframe).write EPC
          (wordBytes elf.entry))).data t.trapframe).write SP (wordBytes sp))) =
      t.mem.fill t.trapframe b' := by simp only [Mem.fill, update_self, update_idem, hb']
  rw [hfill]
  set s1 := t.mem.fill t.trapframe b' with hs1
  set X := leafPages p.pagetable.leafs with hX
  have hfresh : t.trapframe ∉ X := by
    intro hmem
    refine h.holds.not_mem hmem ?_
    simp
  have hfreshR : t.trapframe ∉ R := by
    have hnd := hold.holds.nodup
    intro hmem
    rw [← add_assoc, Multiset.nodup_add] at hnd
    exact Multiset.disjoint_left.mp hnd.2.2 (by simp) hmem
  have hframeX : Frame X t.mem s1 := Frame.fill hfresh b'
  have hview1 : p.view s1 = p.view t.mem := h.toWf.view_frame hframeX
  -- The old memory is freed with the new one among the pages of everything else.
  have hperm : p.pagetable.tables + (X + (t.pagetable.tables +
      (leafPages t.pagetable.leafs + ({t.trapframe} + R)))) =
      t.pagetable.tables + (leafPages t.pagetable.leafs +
        (p.pagetable.tables + (X + ({t.trapframe} + R)))) := by ac_rfl
  have hholds : Holds ly s1 t.pagetable (p.pagetable.tables + (X + ({t.trapframe} + R))) := by
    unfold Holds
    rw [← hperm]
    exact h.holds
  have hframed : (⟨t.sz, t.pagetable⟩ : Space).Framed ly t.trapframe s1
      (p.pagetable.tables + (X + ({t.trapframe} + R))) :=
    .of_leafs hholds hold.size hold.fits hold.kernel
  refine hframed.free.mono ?_
  rintro _ s2 ⟨hown2, hframe2⟩
  have hstacked : p.Stacked ly t.trapframe s2 g ({t.trapframe} + R) :=
    ⟨.of_leafs hown2 h.size h.fits h.kernel, h.size_eq, h.guard, h.stack⟩
  have hdata : s2.data t.trapframe = b' := by
    rw [hframe2.right.right.left.data _ (Multiset.mem_singleton_self _), hs1]
    exact update_self ..
  obtain ⟨ha1, hsp, hepc⟩ := regs_spec b sp elf.entry sp
  refine ⟨rfl, hstacked, ?_, ?_, ?_, ?_, ?_⟩
  · exact (Frame.fill hfreshR b').trans hframe2.right.right.right
  · dsimp only
    rw [hstacked.toWf.view_frame (s := s2) (.refl _ _), ← hview1]
    exact (Wf.view_frame ⟨h.holds, h.size, h.high⟩ hframe2.right.left)
  · rw [reg, hdata]
    exact ha1
  · rw [reg, hdata]
    exact hsp
  · rw [reg, hdata]
    exact hepc

/-! ## kexec -/

def Caller.owned (t : Caller) (R : Multiset ℕ) : Multiset ℕ :=
  t.pagetable.tables + (leafPages t.pagetable.leafs + ({t.trapframe} + R))

/-- Nothing has happened to the process `t`, except that calls of `kalloc` were made. -/
structure Caller.Same (ly : Layout) (R : Multiset ℕ) (t t' : Caller) : Prop where
  eq : t' = { t with mem := t'.mem }
  owned : Owned ly t'.mem (t.owned R)
  frame : Frame (t.owned R) t.mem t'.mem

variable {argv : List (List UInt8)}

/-- **The second part of `kexec`**: it fails if and only if the arguments do not fit in the
stack. -/
theorem execArgs_spec {g : ℕ}
    {s₀ : Mem} (hargs : ∀ arg ∈ argv, arg.length < PGSIZE) (hcount : argv.length < MAXARG)
    (hold : (⟨t.sz, t.pagetable⟩ : Space).Framed ly t.trapframe s₀ ({t.trapframe} + R))
    (h : p.Stacked ly t.trapframe t.mem g (t.owned R)) :
    Wp (execArgs ly sb path argv elf p) t (fun r t' =>
      (PGSIZE < argBytes argv ∧ r = -1 ∧ t.Same ly R t') ∨
      (argBytes argv ≤ PGSIZE ∧ r = argv.length ∧ ∃ view ptrs,
        t.Became ly R path elf p g (p.sz - argBytes argv) view t' ∧
        (∀ a < (g + 1) * PGSIZE, view a = p.view t.mem a) ∧ ptrs.length = argv.length ∧
        ArgLayout view (p.sz - USERSTACK * PGSIZE) p.sz (p.sz - argBytes argv) argv ptrs)) E := by
  unfold execArgs
  refine Wp.get_seq (Wp.zoom_seq (copyArgs_spec hargs hcount h) ?_)
  rintro ⟨q, w⟩ s1 ⟨hq, hstacked, hframe, hbelow, hres⟩
  dsimp only at hq hres ⊢
  subst hq
  refine Wp.modify_seq ?_
  dsimp only
  cases w with
  | none =>
    rw [Option.elim_none] at hres
    refine (bad_free_spec (u := { t with mem := s1 }) hstacked.toFramed).seq ?_
    rintro _ u ⟨s2, rfl, hown, hframe2⟩
    exact .inl ⟨hres, rfl, rfl, hown, hframe.trans hframe2⟩
  | some w =>
    obtain ⟨hfits, rfl, ptrs, hlen, hlayout⟩ := hres
    refine (commitImage_spec (t := { t with mem := s1 }) hold hstacked).seq ?_
    rintro _ t' hbecame
    refine .inr ⟨hfits, rfl, p.view s1, ptrs, ?_, hbelow, hlen, hlayout⟩
    exact ⟨hbecame.eq, hbecame.stacked, hframe.right.right.right.trans hbecame.frame,
      hbecame.view, hbecame.a1, hbecame.sp, hbecame.epc⟩

/-- The strings `sys_exec` builds, as many as it accepts. -/
structure Argv (argv : List (List UInt8)) : Prop where
  count : argv.length < MAXARG
  short : ∀ arg ∈ argv, arg.length < PGSIZE

/-- What a call of `kexec` leads to: the first part has failed, or the arguments do not fit, and
nothing has happened; or the process has the program of the file. -/
inductive Outcome (ly : Layout) (R : Multiset ℕ) (file : Option (List UInt8)) (path : List UInt8)
    (argv : List (List UInt8)) (t : Caller) : Option (Elfhdr × Space) → ℤ → Caller → Prop
  | load {t' : Caller} (h : t.Same ly R t') : Outcome ly R file path argv t none (-1) t'
  | args {w : Elfhdr × Space} {t' : Caller} (hargs : PGSIZE < argBytes argv) (h : t.Same ly R t') :
    Outcome ly R file path argv t (some w) (-1) t'
  | done {c : List UInt8} {elf : Elfhdr} {p : Space} {g : ℕ} {t' : Caller}
    {view : ℕ → Option UInt8} {ptrs : List ℕ} (hfile : file = some c)
    (hargs : argBytes argv ≤ PGSIZE)
    (hbecame : t.Became ly R path elf p g (p.sz - argBytes argv) view t')
    (himage : FileImage c elf g view) (hlen : ptrs.length = argv.length)
    (hlayout : ArgLayout view (p.sz - USERSTACK * PGSIZE) p.sz (p.sz - argBytes argv) argv ptrs) :
    Outcome ly R file path argv t (some (elf, p)) argv.length t'

/-- **A call of `kexec` returns**, and in the file system it leaves an empty section. -/
theorem kexec_outcome {o : Option Fs.InodeId} (h : t.Ok ly sb R)
    (hmem : ly.pages.length < USERPAGES) (hfind : Fs.Finds sb t.fs t.proc path o f₀)
    (hargs : Argv argv) : ∃ w t1 f r t', loadImage ly sb path t = .ok (w, t1) ∧
      kexec ly sb path argv t = .ok (r, t') ∧ Fs.Holding t.fs.passed f none ∧
      Outcome ly R (found t.fs o f₀) path argv { t with fs := f } w r t' := by
  obtain ⟨w, t1, hload, s1, f, rfl, hf, hframe1, hres⟩ := (loadImage_spec (E := fun _ => False) hmem
    h.sound hfind h.space.holds).exists_ok
  have hrun : Wp (loadImage ly sb path) t (fun w' t' => w' = w ∧ t' = { t with mem := s1, fs := f })
      fun _ => False := by
    unfold Wp
    rw [hload]
    exact ⟨rfl, rfl⟩
  obtain ⟨r, t', hok, hout⟩ : ∃ r t', kexec ly sb path argv t = .ok (r, t') ∧
      Outcome ly R (found t.fs o f₀) path argv { t with fs := f } w r t' := by
    refine (Wp.exists_ok (Wp.seq hrun ?_) :)
    rintro w' _ ⟨rfl, rfl⟩
    cases w' with
    | none => exact .load ⟨rfl, hres, hframe1⟩
    | some w =>
      obtain ⟨c, g, hc, hstacked, himage⟩ := hres
      dsimp only
      refine (execArgs_spec (t := { t with mem := s1, fs := f }) hargs.short hargs.count h.space
        hstacked).mono ?_
      rintro r t' (⟨hbig, rfl, hsame⟩ | ⟨hfits, rfl, view, ptrs, hbecame, hview, hlen, hlayout⟩)
      · exact .args hbig ⟨hsame.eq, hsame.owned, hframe1.trans hsame.frame⟩
      refine .done (g := g) hc hfits ?_ ?_ hlen hlayout
      · exact ⟨hbecame.eq, hbecame.stacked, hframe1.right.right.right.trans hbecame.frame,
          hbecame.view, hbecame.a1, hbecame.sp, hbecame.epc⟩
      · refine ⟨himage.header, himage.magic, himage.inFile, himage.accepted, fun a ha => ?_⟩
        rw [hview a (lt_of_lt_of_le ha (Nat.mul_le_mul_right _ (Nat.le_succ _))),
          himage.bytes a ha]
  exact ⟨w, _, f, r, t', hload, hok, hf, hout⟩

/-! ## Failing -/

theorem Caller.Same.ok (hsame : t.Same ly R t') (h : t.Ok ly sb R) : t'.Ok ly sb R := by
  obtain ⟨heq, hown, -⟩ := hsame
  rw [heq]
  exact ⟨.of_leafs hown h.space.size h.space.fits h.space.kernel, h.sound⟩

theorem Caller.Became.ok (hbecame : t.Became ly R path elf p g sp view t') (h : t.Ok ly sb R) :
    t'.Ok ly sb R := by
  have hframed := hbecame.stacked.toFramed
  rw [hbecame.eq]
  exact ⟨hframed, h.sound⟩

theorem Caller.Ok.passed (h : t.Ok ly sb R) {f : Fs.Kernel} (hf : Fs.Holding t.fs.passed f none) :
    Caller.Ok ly sb { t with fs := f } R := by
  refine ⟨h.space, ?_, fun ip => ?_⟩
  · dsimp only
    rw [hf.vol]
    exact h.sound.owned
  · dsimp only
    rw [hf.ref, if_neg (some_ne_none ip).symm, add_zero]
    exact h.sound.ref ip

/-- `loadImage` halts where `namei` does. -/
theorem kexec_of_namei {e : Fs.Halt} (h : Fs.namei sb t.proc path t.fs.begun = .error e) :
    kexec ly sb path argv t = .error (.fs e) := by
  have hload : loadImage ly sb path t = .error (.fs e) := by
    change Except.bind (inFs (Fs.namei sb t.proc path) { t with fs := t.fs.begun }) _ = _
    rw [inFs, zoom, h]
    rfl
  change Except.bind (loadImage ly sb path t) _ = _
  rw [hload]
  rfl

/-- The inode is free on disk, and nobody has read it before. -/
structure Freed (sb : Fs.Superblock) (f : Fs.Kernel) (ip : Fs.InodeId) : Prop where
  ref : 1 ≤ (f.itable ip).ref
  unlocked : (f.itable ip).locked = false
  invalid : (f.itable ip).valid = false
  inum : (f.itable ip).inum < sb.ninodes
  free : (f.vol.dinode (f.itable ip).inum).type = .free

theorem Freed.ilock {f : Fs.Kernel} (h : Freed sb f ip) :
    Fs.ilock sb ip f = .error (.panic "ilock: no type") := by
  change (if (f.itable ip).ref < 1 then _ else if (f.itable ip).locked = true then _ else
    if (f.itable ip).valid = true then _ else if (f.itable ip).inum ≥ sb.ninodes then _ else
    if (f.vol.dinode (f.itable ip).inum).type = .free then _ else _ : Fs.FsM Unit) f = _
  rw [if_neg (not_lt.mpr h.ref), h.unlocked, if_neg Bool.false_ne_true, h.invalid,
    if_neg Bool.false_ne_true, if_neg (not_le.mpr h.inum), if_pos h.free]
  rfl

theorem kexec_of_freed (h : Fs.namei sb t.proc path t.fs.begun = .ok (some ip, f₀))
    (hfreed : Freed sb f₀ ip) :
    kexec ly sb path argv t = .error (.fs (.panic "ilock: no type")) := by
  have hload : loadImage ly sb path t = .error (.fs (.panic "ilock: no type")) := by
    change Except.bind (inFs (Fs.namei sb t.proc path) { t with fs := t.fs.begun }) _ = _
    rw [inFs, zoom, h]
    change Except.bind (inFs (Fs.ilock sb ip) { t with fs := f₀ }) _ = _
    rw [inFs, zoom, hfreed.ilock]
    rfl
  change Except.bind (loadImage ly sb path t) _ = _
  rw [hload]
  rfl

/-- **`exec` fails atomically**, if `namei` returns and the inode it finds is allocated. If `namei`
halts, or the inode is free, it does not return. -/
theorem kexec_atomic {argv : List (List UInt8)} (h : t.Ok ly sb R)
    (hmem : ly.pages.length < USERPAGES) (hargs : Argv argv) (path : List UInt8) :
    (∀ o f₀, Fs.Finds sb t.fs t.proc path o f₀ → ∃ r t', kexec ly sb path argv t = .ok (r, t') ∧
      t'.Ok ly sb R ∧ Frame R t.mem t'.mem ∧ Fs.Holding t.fs.passed t'.fs none ∧
      (r = -1 → t' = { t with mem := t'.mem, fs := t'.fs } ∧ Owned ly t'.mem (t.owned R) ∧
        Frame (t.owned R) t.mem t'.mem)) ∧
    (∀ e, Fs.namei sb t.proc path t.fs.begun = .error e →
      kexec ly sb path argv t = .error (.fs e)) ∧
    ∀ ip f₀, Fs.namei sb t.proc path t.fs.begun = .ok (some ip, f₀) → Freed sb f₀ ip →
      kexec ly sb path argv t = .error (.fs (.panic "ilock: no type")) := by
  refine ⟨fun o f₀ hfind => ?_, fun e he => kexec_of_namei he, fun ip f₀ => kexec_of_freed⟩
  obtain ⟨w, t1, f, r, t', -, hrun, hf, houtcome⟩ := kexec_outcome h hmem hfind hargs
  refine ⟨r, t', hrun, ?_⟩
  cases houtcome with
  | load hs | args _ hs =>
    -- a failure is seen in the memory and the log only
    have hfs : t'.fs = f := by rw [hs.eq]
    refine ⟨hs.ok (h.passed hf), hs.frame.right.right.right, hfs ▸ hf,
      fun _ => ⟨?_, hs.owned, hs.frame⟩⟩
    rw [hfs]
    exact hs.eq
  | done _ hfits hbecame himage hlen hlayout =>
    have hfs : t'.fs = f := by rw [hbecame.eq]
    exact ⟨hbecame.ok (h.passed hf), hbecame.frame, hfs ▸ hf, fun hr => by omega⟩

def execMachine : Layout where
  first := 1
  stop := 33
  trampoline := 0
  pages := List.range' 1 32
  nodup := List.nodup_range'
  range := fun p hp => by
    rw [List.mem_range'_1] at hp
    exact ⟨hp.1, hp.2⟩

def bootMem : Mem where
  free := List.range' 2 31
  data := fun _ _ => 0
  deny := []
  denied := false

/-- A new process, with the executable file `/a`. -/
def initCaller (bs : List UInt8) : Caller :=
  match procPagetable execMachine 1 bootMem with
  | .ok (some pt, s) => ⟨s, 0, pt, 1, fun _ => 0, .boot (.withFile bs), 0⟩
  | _ => ⟨bootMem, 0, .empty 0, 1, fun _ => 0, .boot (.withFile bs), 0⟩

theorem initCaller_fs (bs : List UInt8) :
    (initCaller bs).fs = .boot (.withFile bs) ∧ (initCaller bs).proc = 0 := by
  unfold initCaller
  split <;> exact ⟨rfl, rfl⟩

theorem initCaller_ok {bs : List UInt8} (hlen : bs.length ≤ BSIZE) :
    (initCaller bs).Ok execMachine .small 0 := by
  have hown : Owned execMachine bootMem ({1} + 0) := by
    unfold Owned
    rw [add_zero, add_comm, Multiset.singleton_add]
    rfl
  have hsome : ((procPagetable execMachine 1 bootMem).toOption.bind Prod.fst).isSome = true := by
    decide +kernel
  have hspec : Wp (procPagetable execMachine 1) bootMem _ fun _ => False := procPagetable_spec hown
  obtain ⟨r, s, hrun, -, hres⟩ := hspec.exists_ok
  rw [hrun] at hsome
  cases r with
  | none => cases hsome
  | some pt =>
    rw [initCaller, hrun]
    exact ⟨(Image.empty hres.1 hres.2).toFramed, (Fs.tree_withFile hlen).toSound⟩

theorem initCaller_finds {bs : List UInt8} (hlen : bs.length ≤ BSIZE) (path : List UInt8) :
    ∃ o f, Fs.Finds .small (initCaller bs).fs (initCaller bs).proc path o f := by
  rw [(initCaller_fs bs).1, (initCaller_fs bs).2]
  exact (Fs.tree_withFile hlen).finds (Fs.room_boot _) path

theorem execMachine_lt : execMachine.pages.length < USERPAGES := by
  rw [show execMachine.pages.length = 32 from rfl]
  unfold USERPAGES
  decide

/-- A file with one program header and one segment: the first four bytes of the file at address 0.
-/
def elfFile (high : UInt8) : List UInt8 :=
  [0x7F, 0x45, 0x4C, 0x46] ++ List.replicate 28 0 ++ [64, 0, 0, 0, high, 0, 0, 0] ++
    List.replicate 16 0 ++ [1, 0] ++ List.replicate 6 0 ++
    [1, 0, 0, 0, 5, 0, 0, 0] ++ [0, 0, 0, 0, high, 0, 0, 0] ++ List.replicate 16 0 ++
    [4, 0, 0, 0, 0, 0, 0, 0] ++ [0, 16, 0, 0, 0, 0, 0, 0] ++ List.replicate 8 0

theorem elfFile_small (high : UInt8) : (elfFile high).length ≤ BSIZE := by
  rw [show (elfFile high).length = 120 from rfl]
  decide

def twoArgs : List (List UInt8) := [[0x68, 0x69], [0x78]]

theorem twoArgs_argv : Argv twoArgs := by
  refine ⟨by decide, fun arg harg => ?_⟩
  simp only [twoArgs, mem_cons, not_mem_nil, or_false] at harg
  rcases harg with rfl | rfl <;> decide

/-- A file that is not a program. -/
theorem kexec_atomic_empty : ∃ t',
    kexec execMachine .small [47, 97] twoArgs (initCaller []) = .ok (-1, t') ∧
    t' = { initCaller [] with mem := t'.mem, fs := t'.fs } ∧
    Owned execMachine t'.mem ((initCaller []).owned 0) ∧
    Fs.Holding (initCaller []).fs.passed t'.fs none := by
  have hrun : (kexec execMachine .small [47, 97] twoArgs (initCaller [])).toOption.map Prod.fst =
      some (-1) := by
    decide +kernel
  have hlen : ([] : List UInt8).length ≤ BSIZE := Nat.zero_le _
  obtain ⟨o, f, hfind⟩ := initCaller_finds hlen [47, 97]
  obtain ⟨r, t', hok, -, -, hfs, hsame⟩ := (kexec_atomic (initCaller_ok hlen) execMachine_lt
    twoArgs_argv [47, 97]).1 o f hfind
  rw [hok] at hrun
  obtain rfl : r = -1 := Option.some.inj hrun
  exact ⟨t', hok, (hsame rfl).1, (hsame rfl).2.1, hfs⟩

/-- A process makes the directories `/b` and `/b/c`, goes into `/b/c`, and removes both. -/
def removeCwd : Fs.FsM (List ℤ) := do
  let mkdir ← Fs.sysMkdir .small 0 (some [47, 98])
  let mkdir' ← Fs.sysMkdir .small 0 (some [47, 98, 47, 99])
  let chdir ← Fs.sysChdir .small 0 (some [47, 98, 47, 99])
  let unlink ← Fs.sysUnlink .small 0 (some [47, 98, 47, 99])
  let unlink' ← Fs.sysUnlink .small 0 (some [47, 98])
  pure [mkdir, mkdir', chdir, unlink, unlink']

/-- **`exec("..")` panics** in a removed directory whose parent has been removed too: its entry `..`
still has the number of the parent, and that inode is free. -/
theorem kexec_removed : ∃ f, removeCwd (initCaller []).fs = .ok ([0, 0, 0, 0, 0], f) ∧
    kexec execMachine .small [46, 46] [] { initCaller [] with fs := f } =
      .error (.fs (.panic "ilock: no type")) := by
  have hrun : (match removeCwd (initCaller []).fs with
      | .error _ => false
      | .ok (l, f) => decide (l = [0, 0, 0, 0, 0]) &&
        match kexec execMachine .small [46, 46] [] { initCaller [] with fs := f } with
        | .ok _ => false
        | .error e => decide (e = .fs (.panic "ilock: no type"))) = true := by
    decide +kernel
  rcases hr : removeCwd (initCaller []).fs with e | ⟨l, f⟩
  · rw [hr] at hrun
    cases hrun
  rw [hr] at hrun
  obtain ⟨hl, hk⟩ := Bool.and_eq_true_iff.mp hrun
  obtain rfl := of_decide_eq_true hl
  refine ⟨f, rfl, ?_⟩
  rcases he : kexec execMachine .small [46, 46] [] { initCaller [] with fs := f } with e | w
  · rw [he] at hk
    rw [of_decide_eq_true hk]
  · rw [he] at hk
    cases hk

/-! ## The arguments -/

variable {ptrs : List ℕ}

theorem Pushed.get {top low i ptr : ℕ} {arg : List UInt8} (h : Pushed view top argv ptrs low)
    (harg : argv[i]? = some arg) (hptr : ptrs[i]? = some ptr) :
    low ≤ ptr ∧ ptr + (arg.length + 1) ≤ top ∧
      ∀ j ≤ arg.length, view (ptr + j) = (arg ++ [0])[j]? := by
  induction argv generalizing top ptrs i with
  | nil => exact absurd harg (by simp)
  | cons arg0 argv ih =>
    obtain ⟨ptr0, rest, rfl, hle, hstr, hrest⟩ := h
    cases i with
    | zero =>
      rw [getElem?_cons_zero] at harg hptr
      cases harg
      cases hptr
      exact ⟨hrest.le, hle, hstr⟩
    | succ i =>
      rw [getElem?_cons_succ] at harg hptr
      obtain ⟨hlow, htop, hbytes⟩ := ih hrest harg hptr
      exact ⟨hlow, by omega, hbytes⟩

theorem Pushed.below {top low i j ptr ptr' : ℕ} {arg' : List UInt8}
    (h : Pushed view top argv ptrs low) (hij : i < j) (hptr : ptrs[i]? = some ptr)
    (harg' : argv[j]? = some arg') (hptr' : ptrs[j]? = some ptr') :
    ptr' + (arg'.length + 1) ≤ ptr := by
  induction argv generalizing top ptrs i j with
  | nil => exact absurd harg' (by simp)
  | cons arg0 argv ih =>
    obtain ⟨ptr0, rest, rfl, -, -, hrest⟩ := h
    obtain ⟨j, rfl⟩ := Nat.exists_eq_succ_of_ne_zero (Nat.ne_zero_of_lt hij)
    rw [Nat.succ_eq_add_one, getElem?_cons_succ] at harg' hptr'
    cases i with
    | zero =>
      rw [getElem?_cons_zero] at hptr
      cases hptr
      exact (hrest.get harg' hptr').2.1
    | succ i =>
      rw [getElem?_cons_succ] at hptr
      exact ih hrest (by omega) hptr harg' hptr'

theorem getElem?_words (l : List ℕ) {i b n : ℕ} (hn : l[i]? = some n) (hb : b < 8) :
    (l.flatMap wordBytes)[8 * i + b]? = (wordBytes n)[b]? := by
  induction l generalizing i with
  | nil => exact absurd hn (by simp)
  | cons m l ih =>
    rw [flatMap_cons]
    cases i with
    | zero =>
      rw [getElem?_cons_zero] at hn
      cases hn
      rw [Nat.mul_zero, Nat.zero_add, getElem?_append_left (by rw [length_wordBytes]; exact hb)]
    | succ i =>
      rw [getElem?_cons_succ] at hn
      rw [getElem?_append_right (by rw [length_wordBytes]; omega), length_wordBytes, ← ih hn]
      congr 1
      omega

/-- The arguments in the stack between `base` and `top`: at `sp`, which is a multiple of 16, the
pointers `ptrs` and a zero; behind each pointer the string with its null; nothing overlaps. -/
structure ArgsAt (view : ℕ → Option UInt8) (base top sp : ℕ) (argv : List (List UInt8))
    (ptrs : List ℕ) : Prop where
  aligned : sp % 16 = 0
  length : ptrs.length = argv.length
  above : base ≤ sp
  below : sp + 8 * (argv.length + 1) ≤ top
  vector : ∀ (i ptr b : ℕ), (ptrs ++ [0])[i]? = some ptr → b < 8 →
    view (sp + (8 * i + b)) = (wordBytes ptr)[b]?
  strings : ∀ (i : ℕ) arg ptr, argv[i]? = some arg → ptrs[i]? = some ptr →
    sp + 8 * (argv.length + 1) ≤ ptr ∧ ptr + (arg.length + 1) ≤ top ∧
      ∀ j ≤ arg.length, view (ptr + j) = (arg ++ [0])[j]?
  disjoint : ∀ (i j : ℕ) ptr ptr' arg', i < j → ptrs[i]? = some ptr → argv[j]? = some arg' →
    ptrs[j]? = some ptr' → ptr' + (arg'.length + 1) ≤ ptr

theorem ArgLayout.argsAt {base top sp : ℕ}
    (h : ArgLayout view base top sp argv ptrs) (hlen : ptrs.length = argv.length) :
    ArgsAt view base top sp argv ptrs := by
  have hpad : 8 * (argv.length + 1) ≤ pad ((argv.length + 1) * 8) := by
    unfold pad
    omega
  have hle := h.strings.le
  have hwords : ((ptrs ++ [0]).flatMap wordBytes).length = (argv.length + 1) * 8 := by
    rw [length_words, List.length_append, hlen, List.length_singleton]
  refine ⟨h.aligned, hlen, h.base, by omega, fun i ptr b hi hb => ?_, fun i arg ptr harg hptr => ?_,
    fun i j ptr ptr' arg' hij hptr harg' hptr' => h.strings.below hij hptr harg' hptr'⟩
  · have hlt : i < (ptrs ++ [0]).length := (List.getElem?_eq_some_iff.mp hi).1
    rw [List.length_append, hlen, List.length_singleton] at hlt
    rw [h.vector _ (by omega), getElem?_words _ hi hb]
  · obtain ⟨hlow, htop, hbytes⟩ := h.strings.get harg hptr
    exact ⟨by omega, htop, hbytes⟩

theorem Space.Stacked.not_readable {s : Mem} {g a : ℕ} (h : p.Stacked ly tf s g R)
    (hlo : p.sz - (USERSTACK + 1) * PGSIZE ≤ a) (hhi : a < p.sz - USERSTACK * PGSIZE) :
    ¬ p.Readable a := by
  have hpage : a / PGSIZE = g := by
    rw [h.size_eq] at hlo hhi
    unfold USERSTACK PGSIZE at *
    omega
  obtain ⟨l, hl, hu⟩ := h.guard
  unfold Readable can
  rw [hpage, hl]
  dsimp only
  rw [hu]
  exact Bool.false_ne_true

/-- **The arguments of a new program.** -/
theorem kexec_arguments {argv : List (List UInt8)} {o : Option Fs.InodeId} (h : t.Ok ly sb R)
    (hmem : ly.pages.length < USERPAGES) (hargs : Argv argv) (path : List UInt8)
    (hfind : Fs.Finds sb t.fs t.proc path o f₀) :
    ∃ r t', kexec ly sb path argv t = .ok (r, t') ∧
      (r ≠ -1 → r = argv.length ∧ ∃ sp ptrs, t'.reg SP = wordBytes sp ∧ t'.reg A1 = wordBytes sp ∧
        ArgsAt ((⟨t'.sz, t'.pagetable⟩ : Space).view t'.mem) (t'.sz - USERSTACK * PGSIZE) t'.sz sp
          argv ptrs ∧
        ∀ a, t'.sz - (USERSTACK + 1) * PGSIZE ≤ a → a < t'.sz - USERSTACK * PGSIZE →
          ¬ (⟨t'.sz, t'.pagetable⟩ : Space).Readable a) ∧
      ∃ o t₁, loadImage ly sb path t = .ok (o, t₁) ∧
        (r = -1 ↔ o = none ∨ USERSTACK * PGSIZE < argBytes argv) := by
  obtain ⟨w, t₁, f, r, t', hload, hrun, -, houtcome⟩ := kexec_outcome h hmem hfind hargs
  refine ⟨r, t', hrun, ?_⟩
  cases houtcome with
  | load hs => exact ⟨fun hr => absurd rfl hr, none, _, hload, by simp⟩
  | args hbig hs =>
    refine ⟨fun hr => absurd rfl hr, some _, _, hload, ?_⟩
    simp only [true_iff, reduceCtorEq, false_or]
    unfold USERSTACK
    omega
  | done hfile hfits hbecame himage hlen hlayout =>
    rw [hbecame.space_eq, hbecame.sz_eq, hbecame.view]
    refine ⟨fun _ => ⟨rfl, _, _, hbecame.sp, hbecame.a1, hlayout.argsAt hlen,
      fun a hlo hhi => hbecame.stacked.not_readable hlo hhi⟩, some _, _, hload,
      fun hr => absurd hr (by omega), fun hbig => ?_⟩
    rcases hbig with hnone | hbig
    · cases hnone
    · unfold USERSTACK at hbig
      omega

theorem kexec_elfFile : (kexec execMachine .small [47, 97] twoArgs
    (initCaller (elfFile 0))).toOption.map Prod.fst = some 2 := by
  decide +kernel

/-- A program with two arguments. -/
theorem kexec_arguments_two : ∃ t' sp ptrs,
    kexec execMachine .small [47, 97] twoArgs (initCaller (elfFile 0)) = .ok (2, t') ∧
    t'.reg SP = wordBytes sp ∧ ArgsAt ((⟨t'.sz, t'.pagetable⟩ : Space).view t'.mem)
      (t'.sz - USERSTACK * PGSIZE) t'.sz sp twoArgs ptrs := by
  have hrun := kexec_elfFile
  obtain ⟨o, f, hfind⟩ := initCaller_finds (elfFile_small 0) [47, 97]
  obtain ⟨r, t', hok, hargs, -⟩ := kexec_arguments (initCaller_ok (elfFile_small 0)) execMachine_lt
    twoArgs_argv [47, 97] hfind
  rw [hok] at hrun
  obtain rfl : r = 2 := Option.some.inj hrun
  obtain ⟨-, sp, ptrs, hsp, -, hat, -⟩ := hargs (by decide)
  exact ⟨t', sp, ptrs, hok, hsp, hat⟩

/-! ## The program -/

def Proghdr.Covers (ph : Proghdr) (n x : ℕ) : Prop :=
  ph.type = ELF_PROG_LOAD ∧ ph.vaddr ≤ x ∧ x < ph.vaddr + n

/-- The fields of a segment with bytes in the file that the code narrows to `uint` keep their
values. -/
def Proghdr.Narrow (ph : Proghdr) : Prop :=
  ph.type = ELF_PROG_LOAD → ph.filesz ≠ 0 → ph.off < 2 ^ 32 ∧ ph.filesz < 2 ^ 32

theorem Proghdr.byte_of_covers {ph : Proghdr} (hph : ph.Narrow) {x : ℕ}
    (h : ph.Covers ph.filesz x) : ph.byte file x = file[ph.off + (x - ph.vaddr)]? := by
  obtain ⟨ht, hlo, hhi⟩ := h
  obtain ⟨hoff, hsz⟩ := hph ht (by omega)
  have hoff' : u32 ph.off = ph.off := Nat.mod_eq_of_lt hoff
  have hsz' : u32 ph.filesz = ph.filesz := Nat.mod_eq_of_lt hsz
  rw [Proghdr.byte, hoff', hsz', if_pos ⟨ht, hlo, hhi⟩]

theorem Proghdr.byte_of_not_covers {ph : Proghdr} {x : ℕ} (h : ¬ ph.Covers ph.filesz x) :
    ph.byte file x = none := by
  rw [Proghdr.byte, if_neg]
  rintro ⟨htype, hlo, hhi⟩
  exact h ⟨htype, hlo, lt_of_lt_of_le hhi (Nat.add_le_add_left (Nat.mod_le ..) _)⟩

theorem imageByte_of_not_covers {phs : List Proghdr} {x : ℕ}
    (h : ∀ ph ∈ phs, ¬ ph.Covers ph.filesz x) (b : UInt8) : imageByte file x phs b = b := by
  induction phs generalizing b with
  | nil => rfl
  | cons ph phs ih =>
    rw [imageByte, Proghdr.byte_of_not_covers (h ph mem_cons_self), getD_none]
    exact ih (fun ph' hph' => h ph' (mem_cons_of_mem _ hph')) b

theorem imageByte_of_covers {phs : List Proghdr} {x i : ℕ} {ph : Proghdr} (hi : phs[i]? = some ph)
    (hlater : ∀ j ph', i < j → phs[j]? = some ph' → ¬ ph'.Covers ph'.filesz x) (b : UInt8) :
    ∃ b', imageByte file x phs b = (ph.byte file x).getD b' := by
  induction phs generalizing i b with
  | nil => exact absurd hi (by simp)
  | cons ph0 phs ih =>
    rw [imageByte]
    cases i with
    | zero =>
      rw [getElem?_cons_zero] at hi
      cases hi
      refine ⟨b, imageByte_of_not_covers (fun ph' hph' => ?_) _⟩
      obtain ⟨j, hj⟩ := mem_iff_getElem?.mp hph'
      exact hlater (j + 1) ph' (Nat.succ_pos j) (by rw [getElem?_cons_succ]; exact hj)
    | succ i =>
      rw [getElem?_cons_succ] at hi
      refine ih hi (fun j ph' hij hj => ?_) _
      exact hlater (j + 1) ph' (by omega) (by rw [getElem?_cons_succ]; exact hj)

/-- Memory `view` has the program of `file`, for the program headers at `pos`: they and the segments
are in the file, an address of a segment that no later segment covers has its byte of the file, and
an address that is in no segment's part of the file has a zero. -/
structure ProgramAt (file : List UInt8) (n pos : ℕ) (view : ℕ → Option UInt8) : Prop where
  headers : n = 0 ∨ pos + n * PROGHDRSIZE ≤ file.length
  segments : ∀ ph ∈ phdrs file n pos, ph.type = ELF_PROG_LOAD →
    ph.filesz = 0 ∨ ph.off + ph.filesz ≤ file.length
  bytes : ∀ (i : ℕ) ph x, (phdrs file n pos)[i]? = some ph → ph.Covers ph.filesz x →
    (∀ j ph', i < j → (phdrs file n pos)[j]? = some ph' → ¬ ph'.Covers ph'.memsz x) →
    view x = file[ph.off + (x - ph.vaddr)]?
  zeros : ∀ ph ∈ phdrs file n pos, ∀ x, ph.Covers ph.memsz x →
    (∀ ph' ∈ phdrs file n pos, ¬ ph'.Covers ph'.filesz x) → view x = some 0

/-- The offset of the program headers, if there are any, and the fields of the segments survive the
conversions to `int` and `uint`. -/
structure Narrow (file : List UInt8) (elf : Elfhdr) : Prop where
  phoff : elf.phnum ≠ 0 → elf.phoff < 2 ^ 32
  segments : ∀ ph ∈ phdrs file elf.phnum elf.phoff, ph.Narrow

theorem ProgramAt.narrow (h : ProgramAt file elf.phnum elf.phoff view)
    (hlen : file.length ≤ Fs.MAXFILE * BSIZE) : Narrow file elf := by
  have hmax : Fs.MAXFILE * BSIZE < 2 ^ 32 := by decide
  refine ⟨fun hn => ?_, fun ph hph ht hsz => ?_⟩
  · have := h.headers.resolve_left hn
    omega
  · have := (h.segments ph hph ht).resolve_left hsz
    omega

theorem FileImage.programAt {g : ℕ} (h : FileImage file elf g view) (hnarrow : Narrow file elf) :
    ProgramAt file elf.phnum elf.phoff view := by
  have hphdrs : phdrs file elf.phnum (u32 elf.phoff) = phdrs file elf.phnum elf.phoff := by
    by_cases hn : elf.phnum = 0
    · rw [hn]
      rfl
    · rw [u32, Nat.mod_eq_of_lt (hnarrow.phoff hn)]
  obtain ⟨-, -, hin, hacc, hbytes⟩ := h
  rw [hphdrs] at hacc
  simp only [hphdrs] at hbytes
  refine ⟨?_, fun ph hph ht => ?_, fun i ph x hi hcov hlater => ?_, fun ph hph x hcov hnot => ?_⟩
  · by_cases hn : elf.phnum = 0
    · exact .inl hn
    · rwa [u32, Nat.mod_eq_of_lt (hnarrow.phoff hn)] at hin
  · by_cases hsz : ph.filesz = 0
    · exact .inl hsz
    · obtain ⟨hoff', hsz'⟩ := hnarrow.segments ph hph ht hsz
      have hfits := (hacc ph hph ht).inFile
      rwa [u32, u32, Nat.mod_eq_of_lt hoff', Nat.mod_eq_of_lt hsz'] at hfits
  · have hph : ph ∈ phdrs file elf.phnum elf.phoff := mem_of_getElem? hi
    have ha := hacc ph hph hcov.1
    have hx : x < g * PGSIZE :=
      lt_of_lt_of_le hcov.2.2 ((Nat.add_le_add_left ha.memsz _).trans ha.below)
    have hlast : ∀ j ph', i < j → (phdrs file elf.phnum elf.phoff)[j]? = some ph' →
        ¬ ph'.Covers ph'.filesz x := by
      intro j ph' hij hj hcov'
      have ha' := hacc ph' (mem_of_getElem? hj) hcov'.1
      exact hlater j ph' hij hj ⟨hcov'.1, hcov'.2.1,
        lt_of_lt_of_le hcov'.2.2 (Nat.add_le_add_left ha'.memsz _)⟩
    obtain ⟨b', hb'⟩ : ∃ b', imageByte file x (phdrs file elf.phnum elf.phoff) 0 =
        (ph.byte file x).getD b' := imageByte_of_covers hi hlast 0
    rw [hbytes x hx, hb', Proghdr.byte_of_covers (hnarrow.segments ph hph) hcov]
    obtain ⟨ht, hlo, hhi⟩ := hcov
    obtain ⟨hoff', hsz⟩ := hnarrow.segments ph hph ht (by omega)
    have hfits := ha.inFile
    rw [u32, u32, Nat.mod_eq_of_lt hoff', Nat.mod_eq_of_lt hsz] at hfits
    rw [getElem?_eq_getElem (by omega), getD_some]
  · have ha := hacc ph hph hcov.1
    have hx : x < g * PGSIZE := lt_of_lt_of_le hcov.2.2 ha.below
    rw [hbytes x hx, imageByte_of_not_covers hnot]

/-- The program headers and the segments lie in the file, empty ones included. -/
def FitsFile (file : List UInt8) (elf : Elfhdr) : Prop :=
  elf.phoff + elf.phnum * PROGHDRSIZE ≤ file.length ∧
    ∀ ph ∈ phdrs file elf.phnum elf.phoff, ph.type = ELF_PROG_LOAD →
      ph.off + ph.filesz ≤ file.length

/-- A range of no bytes that is looked at nowhere lies in the file all the same. -/
def EmptyFits (file : List UInt8) (elf : Elfhdr) : Prop :=
  (elf.phnum = 0 → elf.phoff ≤ file.length) ∧
    ∀ ph ∈ phdrs file elf.phnum elf.phoff, ph.type = ELF_PROG_LOAD → ph.filesz = 0 →
      ph.off ≤ file.length

theorem ProgramAt.fitsFile_iff (h : ProgramAt file elf.phnum elf.phoff view) :
    FitsFile file elf ↔ EmptyFits file elf := by
  refine ⟨fun hfits => ⟨fun hn => ?_, fun ph hph ht hsz => ?_⟩,
    fun hempty => ⟨?_, fun ph hph ht => ?_⟩⟩
  · have := hfits.1
    omega
  · have := hfits.2 ph hph ht
    omega
  · rcases h.headers with hn | hle
    · rw [hn, Nat.zero_mul]
      exact hempty.1 hn
    · exact hle
  rcases h.segments ph hph ht with hsz | hle
  · rw [hsz]
    exact hempty.2 ph hph ht hsz
  · exact hle

/-- **`exec` loads what the file says** if and only if the offsets and sizes it uses are less than
`2 ^ 32`, so that the code keeps their values; the file it accepts then has all of them inside, but
for the offsets of empty ranges. -/
theorem kexec_loads {argv : List (List UInt8)} {elf : Elfhdr} (h : t.Ok ly sb R)
    (hmem : ly.pages.length < USERPAGES) (hargs : Argv argv) (path : List UInt8)
    (hfind : Fs.Finds sb t.fs t.proc path (some ip) f₀)
    (hfile : t.fs.vol.content (f₀.itable ip).inum = file)
    (helf : elf = .decode (file.take ELFHDRSIZE)) :
    ∃ r t', kexec ly sb path argv t = .ok (r, t') ∧
      (r ≠ -1 → (ProgramAt file elf.phnum elf.phoff
          ((⟨t'.sz, t'.pagetable⟩ : Space).view t'.mem) ↔ Narrow file elf) ∧
        (Narrow file elf → (FitsFile file elf ↔ EmptyFits file elf))) := by
  have hlen : file.length ≤ Fs.MAXFILE * BSIZE := by
    rw [← hfile, Fs.Volume.length_content]
    exact h.sound.owned.size_le (hfind.found ip rfl).alloc
  obtain ⟨w, t1, f, r, t', -, hrun, -, houtcome⟩ := kexec_outcome h hmem hfind hargs
  refine ⟨r, t', hrun, fun hr => ?_⟩
  cases houtcome with
  | load hs => exact absurd rfl hr
  | args hbig hs => exact absurd rfl hr
  | done hc hfits hbecame himage hlen' hlayout =>
    rw [found, Option.map_some, hfile] at hc
    cases hc
    have helf' := himage.header.trans helf.symm
    subst helf'
    rw [hbecame.space_eq, hbecame.view]
    exact ⟨⟨fun hprog => hprog.narrow hlen, himage.programAt⟩,
      fun hnarrow => (himage.programAt hnarrow).fitsFile_iff⟩

/-- A program of one segment. -/
theorem kexec_loads_small : ∃ t',
    kexec execMachine .small [47, 97] twoArgs (initCaller (elfFile 0)) = .ok (2, t') ∧
    ProgramAt (elfFile 0) 1 64 ((⟨t'.sz, t'.pagetable⟩ : Space).view t'.mem) := by
  have hrun := kexec_elfFile
  have helf : (⟨ELF_MAGIC, 0, 64, 1⟩ : Elfhdr) = .decode ((elfFile 0).take ELFHDRSIZE) := by
    decide +kernel
  obtain ⟨o, f, hfind⟩ := initCaller_finds (elfFile_small 0) [47, 97]
  have hfound : ((Fs.namei .small (initCaller (elfFile 0)).proc [47, 97]
      (initCaller (elfFile 0)).fs.begun).toOption.map fun w => w.1.map fun ip =>
        (initCaller (elfFile 0)).fs.vol.content (w.2.itable ip).inum) =
      some (some (elfFile 0)) := by
    decide +kernel
  rw [hfind.run] at hfound
  obtain ⟨ip, rfl, hfile⟩ := Option.map_eq_some_iff.mp (Option.some.inj hfound)
  obtain ⟨r, t', hok, hloads⟩ := kexec_loads (initCaller_ok (elfFile_small 0)) execMachine_lt
    twoArgs_argv [47, 97] hfind hfile helf
  rw [hok] at hrun
  obtain rfl : r = 2 := Option.some.inj hrun
  refine ⟨t', hok, (hloads (by decide)).1.mpr ⟨fun _ => by decide, fun ph hph _ _ => ?_⟩⟩
  change ph ∈ phdrs (elfFile 0) 1 64 at hph
  rw [phdrs, phdrs, mem_singleton] at hph
  subst hph
  decide +kernel

/-- **Offsets are cut to 32 bits**: a file whose header puts the program headers, and the program
header the segment, at offsets behind the end of the file is accepted, and its first bytes are
loaded. -/
theorem kexec_wide_offsets : ∃ t',
    kexec execMachine .small [47, 97] [] (initCaller (elfFile 1)) = .ok (0, t') ∧
    (⟨t'.sz, t'.pagetable⟩ : Space).view t'.mem 0 = (elfFile 1)[0]? ∧
    (elfFile 1).length < (Elfhdr.decode ((elfFile 1).take ELFHDRSIZE)).phoff ∧
    ∀ ph ∈ phdrs (elfFile 1) 1 64, ph.type = ELF_PROG_LOAD ∧ (elfFile 1).length < ph.off := by
  have hrun : ((kexec execMachine .small [47, 97] [] (initCaller (elfFile 1))).toOption.map fun w =>
      (w.1, (⟨w.2.sz, w.2.pagetable⟩ : Space).view w.2.mem 0)) = some (0, some 0x7F) := by
    decide +kernel
  rcases hk : kexec execMachine .small [47, 97] [] (initCaller (elfFile 1)) with e | ⟨r, t'⟩
  · rw [hk] at hrun
    cases hrun
  rw [hk] at hrun
  have hpair := Option.some.inj hrun
  obtain rfl : r = 0 := congrArg Prod.fst hpair
  refine ⟨t', rfl, congrArg Prod.snd hpair, by decide +kernel, fun ph hph => ?_⟩
  rw [phdrs, phdrs, List.mem_singleton] at hph
  subst hph
  decide +kernel

end Xv6.Vm
