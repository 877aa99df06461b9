import Mathlib

/-!
# Parameters

The constants of `param.h`, `semaphore.h` and `fs.h`, and the two's complement arithmetic of the C
integers.
-/

namespace Xv6

def NPROC : ℕ := 64

def NSEM : ℕ := 128

instance : NeZero NPROC := ⟨by decide⟩

instance : NeZero NSEM := ⟨by decide⟩

def SEM_EVENT_LOG_SIZE : ℕ := 1024

def MAX_GANTT_EVENTS : ℕ := 256

def MAX_GANTT_PIDS : ℕ := 32

/-- Maximum number of blocks any file-system operation writes. -/
def MAXOPBLOCKS : ℕ := 10

def LOGBLOCKS : ℕ := MAXOPBLOCKS * 3

def NBUF : ℕ := MAXOPBLOCKS * 3

instance : NeZero NBUF := ⟨by decide⟩

def BSIZE : ℕ := 1024

def NOFILE : ℕ := 16

def NFILE : ℕ := 100

def NINODE : ℕ := 50

instance : NeZero NOFILE := ⟨by decide⟩

instance : NeZero NFILE := ⟨by decide⟩

instance : NeZero NINODE := ⟨by decide⟩

def NDEV : ℕ := 10

def INT_MIN : ℤ := -2 ^ 31

def INT_MAX : ℤ := 2 ^ 31 - 1

/-- The value a C `int` holds after `x` was stored in it. -/
def int32 (x : ℤ) : ℤ := Int.bmod x (2 ^ 32)

/-- The value a C `short` holds after `x` was stored in it. -/
def int16 (x : ℤ) : ℤ := Int.bmod x (2 ^ 16)

/-- The value a C `unsigned int` holds after `x` was stored in it. -/
def uint32 (x : ℤ) : ℕ := (x % 2 ^ 32).toNat

theorem int32_of_range {x : ℤ} (hmin : INT_MIN ≤ x) (hmax : x ≤ INT_MAX) : int32 x = x := by
  simp only [INT_MIN, INT_MAX] at hmin hmax
  exact Int.bmod_eq_of_le (by omega) (by omega)

theorem int32_le (x : ℤ) : int32 x ≤ INT_MAX := by
  have h := Int.bmod_lt (x := x) (m := 2 ^ 32) (by omega)
  simp only [int32, INT_MAX]
  omega

theorem le_int32 (x : ℤ) : INT_MIN ≤ int32 x := by
  have h := Int.le_bmod (x := x) (m := 2 ^ 32) (by omega)
  simp only [int32, INT_MIN]
  omega

theorem int32_add_int32 (x y : ℤ) : int32 (int32 x + y) = int32 (x + y) := by
  simp only [int32, Int.bmod_add_bmod]

theorem int32_sub_int32 (x y : ℤ) : int32 (int32 x - y) = int32 (x - y) := by
  rw [Int.sub_eq_add_neg, int32_add_int32, ← Int.sub_eq_add_neg]

theorem uint32_int32 {n : ℕ} (h : n < 2 ^ 32) : uint32 (int32 n) = n := by
  have hmod : Int.bmod (n : ℤ) (2 ^ 32) % ((2 ^ 32 : ℕ) : ℤ) = n % ((2 ^ 32 : ℕ) : ℤ) :=
    Int.bmod_emod
  norm_num at hmod h
  norm_num [uint32, int32, hmod]
  omega

end Xv6
