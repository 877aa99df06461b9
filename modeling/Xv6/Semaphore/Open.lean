import Xv6.Semaphore.Code
import Xv6.Vm.CopyStr

/-!
# The name of a semaphore

`sys_sem_open` reads the name into a buffer on the kernel stack with `argstr` and does not look at
the result.

## Main results

* `open_name_iff`: when the name stored is what the caller wrote
-/

namespace Xv6.Semaphore

open Thread Vm

def semAlloc (sh : Shared) (value : ℤ) (name : List UInt8) : ℤ × Shared :=
  match sh.firstInactive with
  | none => (-1, sh)
  | some i =>
    (i.val, sh.setSem i
      { active := true, count := value, name := safestrcpy name 16, inc := (sh.semTable i).inc + 1 })

def execs (me : Proc SemId) : ℕ → Label → Shared → Label × Shared
  | 0, l, sh => (l, sh)
  | n + 1, l, sh =>
    match instr l with
    | .exec f => execs me n (f me sh).2 (f me sh).1
    | _ => (l, sh)

/-- The steps of the semaphore machine under `sem_table_lock` are this `sem_alloc`. -/
theorem execs_semAlloc (me : Proc SemId) (sh : Shared) (value : ℤ) (name : List UInt8) :
    execs me 3 (.semAlloc value name) sh =
      (.semAllocRelease (semAlloc sh value name).1, (semAlloc sh value name).2) := by
  cases hi : sh.firstInactive <;> simp [execs, instr, semAlloc, hi, Shared.setSem]

def sysSemOpen (s : Mem) (p : Space) (sh : Shared) (value : ℤ) (addr : ℕ) (name : Bytes) :
    ℤ × Shared :=
  semAlloc sh value ((fetchstr s p addr name 16).1.read 0 16)

variable {s : Mem} {p : Space}

/-- **`copyinstr`** stores a string and its null, the same into every buffer, or fails for every
buffer. -/
theorem copyinstr_spec (pt : PageTable) (srcva max : ℕ) :
    (∃ str : List UInt8, (∀ x ∈ str, x ≠ 0) ∧ str.length < max ∧
      ∀ dst, copyinstr s pt dst srcva max = (dst.write 0 (str ++ [0]), true)) ∨
    ∀ dst, (copyinstr s pt dst srcva max).2 = false := by
  by_cases hva : srcva < 2 ^ 64
  · obtain ⟨str, found, hscan, heq⟩ := copyinstrLoop_scan s pt (le_refl max) hva
    rcases found with _ | _
    · exact .inr fun dst => by rw [copyinstr, heq]
    · exact .inl ⟨str, hscan.ne_zero, (hscan.null rfl).1, fun dst => by rw [copyinstr, heq]; rfl⟩
  have hnone : walkaddr pt (pgrounddown srcva) = none := by
    refine if_pos ?_
    unfold pgrounddown MAXVA PGSIZE
    omega
  refine .inr fun dst => ?_
  rcases max with _ | max
  · rfl
  · simp [copyinstr, copyinstrLoop, hnone]

theorem safestrcpy_write {str : List UInt8} (hne : ∀ x ∈ str, x ≠ 0) (hlt : str.length < 16)
    (b : Bytes) : safestrcpy ((b.write 0 (str ++ [0])).read 0 16) 16 = str := by
  rw [safestrcpy, takeWhile_read_write hne hlt, List.take_of_length_le (by omega)]

/-- `argstr` gives a string, whatever the buffer holds, and then `sys_sem_open` stores it. -/
theorem sysSemOpen_of_readable (sh : Shared) (value : ℤ) {addr : ℕ} {buf : Bytes}
    (hread : (fetchstr s p addr buf 16).2 ≠ none) :
    ∃ str : List UInt8, str.length < 16 ∧ (∀ x ∈ str, x ≠ 0) ∧
      (∀ name, fetchstr s p addr name 16 = (name.write 0 (str ++ [0]), some str.length)) ∧
      ∀ name, sysSemOpen s p sh value addr name = semAlloc sh value str := by
  rcases copyinstr_spec (s := s) p.pagetable addr 16 with ⟨str, hne, hlt, heq⟩ | hfail
  · have hall : str.takeWhile (· ≠ 0) = str := by
      rw [List.takeWhile_eq_self_iff]
      simpa using hne
    have hsafe : safestrcpy str 16 = str := by
      rw [safestrcpy, hall, List.take_of_length_le (by omega)]
    refine ⟨str, hlt, hne, fun name => ?_, fun name => ?_⟩
    · rw [fetchstr, heq, if_pos rfl, strlen, takeWhile_read_write hne hlt]
    · rw [sysSemOpen, fetchstr, heq, semAlloc, semAlloc, safestrcpy_write hne hlt, hsafe]
  · exact absurd (by simp [fetchstr, hfail]) hread

/-- What the caller may expect: neither the result nor the table depends on the stack buffer, and a
call that cannot read the name fails and changes nothing. -/
def NameIsRead (s : Mem) (p : Space) (sh : Shared) (value : ℤ) (addr : ℕ) : Prop :=
  (∀ name name', sysSemOpen s p sh value addr name = sysSemOpen s p sh value addr name') ∧
    ∀ name, (fetchstr s p addr name 16).2 = none → sysSemOpen s p sh value addr name = (-1, sh)

/-- **When the name is what the caller wrote**: exactly if `argstr` succeeds or there is no slot to
take. When it succeeds the name stored is the string at `addr`. -/
theorem open_name_iff (sh : Shared) (value : ℤ) (addr : ℕ) (buf : Bytes) :
    (NameIsRead s p sh value addr ↔
      (fetchstr s p addr buf 16).2 ≠ none ∨ sh.firstInactive = none) ∧
    ((fetchstr s p addr buf 16).2 ≠ none → ∃ str : List UInt8, str.length < 16 ∧
      (∀ x ∈ str, x ≠ 0) ∧ (∀ name, (fetchstr s p addr name 16).1 = name.write 0 (str ++ [0])) ∧
      ∀ name, sysSemOpen s p sh value addr name = semAlloc sh value str) := by
  refine ⟨⟨fun h => ?_, ?_⟩, fun hread => ?_⟩
  · by_contra hnot
    obtain ⟨hread, hslot⟩ := not_or.mp hnot
    obtain ⟨i, hi⟩ := Option.ne_none_iff_exists'.mp hslot
    have hres := congrArg Prod.fst (h.2 buf (not_not.mp hread))
    rw [sysSemOpen, semAlloc, hi] at hres
    dsimp only at hres
    omega
  · rintro (hread | hfull)
    · obtain ⟨str, -, -, hfetch, hopen⟩ := sysSemOpen_of_readable (p := p) sh value hread
      exact ⟨fun name name' => by rw [hopen, hopen], fun name hnone => by simp [hfetch] at hnone⟩
    · have hopen : ∀ name, sysSemOpen s p sh value addr name = (-1, sh) := fun name => by
        rw [sysSemOpen, semAlloc, hfull]
      exact ⟨fun name name' => by rw [hopen, hopen], fun name _ => hopen name⟩
  · obtain ⟨str, hlt, hne, hfetch, hopen⟩ := sysSemOpen_of_readable (p := p) sh value hread
    exact ⟨str, hlt, hne, fun name => by rw [hfetch], hopen⟩

def blankMem : Mem where
  free := []
  data _ _ := 0
  deny := []
  denied := false

def emptySpace : Space := ⟨0, .empty 1⟩

/-- **The stack shows in the name.** When the address of the name is not mapped, `argstr` fails, but
`sys_sem_open` takes a slot and returns it, and the name stored is what the stack buffer held. -/
theorem open_name_from_stack :
    let opened (c : UInt8) := sysSemOpen blankMem emptySpace boot.shared 1 0 fun _ => c
    (fetchstr blankMem emptySpace 0 (fun _ => 65) 16).2 = none ∧
    (opened 65).1 = 0 ∧ ((opened 65).2.semTable 0).active = true ∧
    ((opened 65).2.semTable 0).name = List.replicate 15 65 ∧
    ((opened 66).2.semTable 0).name = List.replicate 15 66 := by
  decide +kernel

end Xv6.Semaphore
