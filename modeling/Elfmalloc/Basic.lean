import Mathlib
/-!
# Constants, size arithmetic and tags

The constants of `general.rs`, the integer helpers the size classes and the large-object path
use (`round_up`, `round_to_page`, `next_power_of_two`, `trailing_zeros`, `is_power_of_two`), and
`AllocType`, the tag `get_type` reads. A `Target` fixes what the code leaves to the build: the
`cfg` that drops the 8-byte class, the width of `usize`, and the OS page size.
-/

namespace Elfmalloc

/-- What the code leaves to the build it is compiled for. -/
structure Target where
  /-- The 8-byte class `word_objs` exists: every build except the C API on macOS and 64-bit
  Windows, whose minimum alignment is 16. -/
  wordObjs : Bool
  /-- `usize` arithmetic is taken modulo `usizeMod`: `2 ^ 64`, wrapping as release builds do.
  `usizeMod = 0` reads every size as an unbounded natural, since `n % 0 = n`. -/
  usizeMod : Nat
  /-- `mmap::page_size()`. -/
  osPageSize : Nat
  deriving DecidableEq, Repr

/-- A 64-bit Linux build with the default features. -/
def Target.linux64 : Target := ⟨true, 2 ^ 64, 4096⟩

namespace Target

/-- The `usize` value of `n`. -/
def wrap (tg : Target) (n : Nat) : Nat := n % tg.usizeMod

/-- `a - b` on `usize`, wrapping below zero. -/
def wsub (tg : Target) (a b : Nat) : Nat := (a + tg.usizeMod - b) % tg.usizeMod

/-- `n` is representable in `usize`. -/
def Fits (tg : Target) (n : Nat) : Prop := tg.usizeMod = 0 ∨ n < tg.usizeMod

theorem wrap_of_fits {tg : Target} {n : Nat} (h : tg.Fits n) : tg.wrap n = n := by
  rcases h with h | h
  · simp [wrap, h]
  · exact Nat.mod_eq_of_lt h

theorem Fits.mono {tg : Target} {a b : Nat} (h : tg.Fits b) (hab : a ≤ b) : tg.Fits a := by
  rcases h with h | h
  · exact .inl h
  · exact .inr (by omega)

theorem wsub_of_le {tg : Target} {a b : Nat} (hb : b ≤ a) (h : tg.Fits a) : tg.wsub a b = a - b := by
  rcases h with h | h
  · simp [wsub, h]
  · rw [wsub, show a + tg.usizeMod - b = a - b + tg.usizeMod by omega, Nat.add_mod_right,
      Nat.mod_eq_of_lt (by omega)]

end Target

/-! ## Constants -/

/-- `ELFMALLOC_PAGE_SIZE`: large-slab pages and the 2 MiB regions tags describe. -/
def elfmallocPageSize : Nat := 2 <<< 20

/-- `ELFMALLOC_SMALL_PAGE_SIZE`. -/
def elfmallocSmallPageSize : Nat := 256 <<< 10

/-- `ELFMALLOC_SMALL_CUTOFF`. -/
def elfmallocSmallCutoff : Nat := elfmallocSmallPageSize / 4

/-- `MULTIPLE`: the step of the small size classes. -/
def multiple : Nat := 16

/-- `mem::size_of::<usize>()`. -/
def wordSize : Nat := 8

@[simp] theorem elfmallocPageSize_eq : elfmallocPageSize = 2097152 := rfl
@[simp] theorem elfmallocSmallPageSize_eq : elfmallocSmallPageSize = 262144 := rfl
@[simp] theorem elfmallocSmallCutoff_eq : elfmallocSmallCutoff = 65536 := rfl
@[simp] theorem multiple_eq : multiple = 16 := rfl
@[simp] theorem wordSize_eq : wordSize = 8 := rfl

/-! ## Rounding -/

/-- `round_up`: `(n + 15) & !15`, the least multiple of 16 that is at least `n`. -/
def roundUp (n : Nat) : Nat := (n + (multiple - 1)) / multiple * multiple

/-- `round_to_page`: `item & !(ELFMALLOC_PAGE_SIZE - 1)`, down to a 2 MiB boundary. -/
def roundToPage (a : Nat) : Nat := a / elfmallocPageSize * elfmallocPageSize

theorem roundUp_spec (n : Nat) : n ≤ roundUp n ∧ roundUp n < n + 16 ∧ roundUp n % 16 = 0 := by
  simp only [roundUp, multiple_eq]; omega

/-- `round_up` is the least multiple of 16 above `n`. -/
theorem roundUp_le {n c : Nat} (h : n ≤ c) (hc : c % 16 = 0) : roundUp n ≤ c := by
  simp only [roundUp, multiple_eq]; omega

theorem roundUp_of_dvd {c : Nat} (hc : c % 16 = 0) : roundUp c = c := by
  simp only [roundUp, multiple_eq]; omega

/-! ## Powers of two

`usize::next_power_of_two` is the core library's `Nat.nextPowerOfTwo`; on `usize` it wraps to
`0` above `2 ^ 63`, which the callers write as `tg.wrap`. -/

theorem nextPowerOfTwo_go_eq (n : Nat) : ∀ (p : Nat) (h : p > 0) (i : Nat), p = 2 ^ i →
    Nat.nextPowerOfTwo.go n p h = 2 ^ max i (Nat.clog 2 n) := by
  intro p h
  induction p, h using Nat.nextPowerOfTwo.go.induct n with
  | case1 p h hlt ih =>
    intro i hi
    rw [Nat.nextPowerOfTwo.go, if_pos hlt, ih (i + 1) (by rw [hi, Nat.pow_succ])]
    have : i < Nat.clog 2 n := (Nat.pow_lt_iff_lt_clog (by decide)).1 (hi ▸ hlt)
    congr 1; omega
  | case2 p h hge =>
    intro i hi
    rw [Nat.nextPowerOfTwo.go, if_neg hge]
    have : Nat.clog 2 n ≤ i := (Nat.le_pow_iff_clog_le (by decide)).1 (hi ▸ Nat.le_of_not_lt hge)
    rw [hi]; congr 1; omega

/-- `next_power_of_two n` is `2` to the ceiling of `log₂ n`. -/
theorem nextPowerOfTwo_eq_clog (n : Nat) : n.nextPowerOfTwo = 2 ^ Nat.clog 2 n := by
  rw [Nat.nextPowerOfTwo, nextPowerOfTwo_go_eq n 1 _ 0 rfl, Nat.zero_max]

theorem le_nextPowerOfTwo (n : Nat) : n ≤ n.nextPowerOfTwo := by
  rw [nextPowerOfTwo_eq_clog]; exact Nat.le_pow_clog (by decide) n

/-- No power of two at least `n` is below `next_power_of_two n`. -/
theorem nextPowerOfTwo_le {n k : Nat} (h : n ≤ 2 ^ k) : n.nextPowerOfTwo ≤ 2 ^ k := by
  rw [nextPowerOfTwo_eq_clog]
  exact Nat.pow_le_pow_right (by decide) ((Nat.le_pow_iff_clog_le (by decide)).1 h)

theorem nextPowerOfTwo_two_pow (k : Nat) : (2 ^ k).nextPowerOfTwo = 2 ^ k :=
  Nat.le_antisymm (nextPowerOfTwo_le (Nat.le_refl _)) (le_nextPowerOfTwo _)

/-- Evaluates `next_power_of_two` on a concrete argument. -/
theorem nextPowerOfTwo_eq_of {n k : Nat} (h₁ : n ≤ 2 ^ k) (h₂ : 2 ^ k < 2 * n) :
    n.nextPowerOfTwo = 2 ^ k := by
  rw [nextPowerOfTwo_eq_clog]
  congr 1
  have hle := (Nat.le_pow_iff_clog_le (b := 2) (by decide)).1 h₁
  cases k with
  | zero => exact Nat.le_antisymm hle (Nat.zero_le _)
  | succ k =>
    have : 2 ^ k < n := by rw [Nat.pow_succ] at h₂; omega
    have := (Nat.pow_lt_iff_lt_clog (by decide)).1 this
    omega

/-- `usize::is_power_of_two`. -/
def isPowerOfTwo (n : Nat) : Bool := n.nextPowerOfTwo == n

theorem isPowerOfTwo_iff {n : Nat} : isPowerOfTwo n = true ↔ ∃ k, n = 2 ^ k := by
  simp only [isPowerOfTwo, beq_iff_eq]
  constructor
  · intro h; exact ⟨_, h.symm.trans (nextPowerOfTwo_eq_clog n)⟩
  · rintro ⟨k, rfl⟩; exact nextPowerOfTwo_two_pow k

theorem isPowerOfTwo_two_pow (k : Nat) : isPowerOfTwo (2 ^ k) = true := isPowerOfTwo_iff.2 ⟨k, rfl⟩

/-- `trailing_zeros`: the number of low zero bits. `get_raw` takes it of powers of two only. -/
def trailingZeros (n : Nat) : Nat :=
  if n ≠ 0 ∧ n % 2 = 0 then trailingZeros (n / 2) + 1 else 0
termination_by n
decreasing_by omega

@[simp] theorem trailingZeros_two_pow (k : Nat) : trailingZeros (2 ^ k) = k := by
  induction k with
  | zero => rw [trailingZeros]; simp
  | succ k ih =>
    rw [trailingZeros, if_pos ⟨(Nat.two_pow_pos _).ne', by rw [Nat.pow_succ]; omega⟩, Nat.pow_succ,
      Nat.mul_div_cancel _ (by decide), ih]

/-! ## Tags -/

/-- `AllocType`: the tag at the base of every 2 MiB region the allocator hands memory out of. -/
inductive AllocType where
  | SmallSlag
  | BigSlag
  | Large
  deriving DecidableEq, Repr, Inhabited

end Elfmalloc
