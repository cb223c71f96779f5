import Elfmalloc.Basic
/-!
# The size-class map

`TieredSizeClasses` and its two runs as `init_conserve` builds them and `get_raw` reads them:
`Multiples` steps by 16 from `round_up(start)`, `PowersOfTwo` doubles from the first power of
two above the last multiple, and the default build adds the 8-byte `word_objs` last. The
constructor `f` is an `FnMut` closure: its state is threaded through every call and handed
back, as `init_conserve` hands back `F`.

For the default build with `1 ≤ start ≤ 16` and at least two classes, `get_raw n` picks an
existing slot whose class is the least class `≥ n`, and every class picks its own slot
(`getRaw_least_class`). The C API build on macOS and 64-bit Windows has no word class: the same
holds from one byte up, and `get_raw(0)` underflows (`getRaw_least_class_noWord`). `max_key` is
the largest class (`Layout.classSize_le_maxKey`) when the doubling after it fits in `usize`, and
`0` when it wraps (`maxKey_wraps_at_last_class`). `Clone` for either run rebuilds it class
by class through `get_raw`, and gives the map back (`Multiples.clone_initConserve_eq`,
`PowersOfTwo.clone_initConserve_of_fits`).
-/

namespace Elfmalloc

variable {σ T : Type}

/-- The loop of both `init_conserve`s: `k` calls of `f`, at `cur_size`, `step cur_size`, ...
It returns the closure's state, the classes in order and the final `cur_size`. -/
def fill (step : Nat → Nat) (f : σ → Nat → σ × T) : σ → Nat → Nat → σ × List T × Nat
  | s, cur, 0 => (s, [], cur)
  | s, cur, k + 1 =>
    let r := f s cur
    let rest := fill step f r.1 (step cur) k
    (rest.1, r.2 :: rest.2.1, rest.2.2)

section Fill
variable (step : Nat → Nat) (f : σ → Nat → σ × T)

@[simp] theorem fill_length (s : σ) (cur k : Nat) : (fill step f s cur k).2.1.length = k := by
  induction k generalizing s cur with
  | zero => rfl
  | succ k ih => simp [fill, ih]

theorem fill_last (s : σ) (cur k : Nat) : (fill step f s cur k).2.2 = step^[k] cur := by
  induction k generalizing s cur with
  | zero => rfl
  | succ k ih => simp [fill, ih]

/-- Class `i` is what `f` returned on the `i`-th size. -/
theorem fill_getElem? {s : σ} {cur k i : Nat} {x : T} (h : (fill step f s cur k).2.1[i]? = some x) :
    ∃ s', x = (f s' (step^[i] cur)).2 := by
  induction k generalizing s cur i with
  | zero => simp [fill] at h
  | succ k ih =>
    cases i with
    | zero => simp only [fill, List.getElem?_cons_zero, Option.some.injEq] at h; exact ⟨s, h.symm⟩
    | succ i =>
      simp only [fill, List.getElem?_cons_succ] at h
      obtain ⟨s', hs'⟩ := ih h
      exact ⟨s', by rw [hs', Function.iterate_succ_apply]⟩

theorem fill_stateless (g : Nat → T) (u : Unit) (cur k : Nat) :
    (fill step (fun u n => (u, g n)) u cur k).2.1 = (List.range k).map fun i => g (step^[i] cur) := by
  induction k generalizing cur with
  | zero => rfl
  | succ k ih => simp [fill, ih, List.range_succ_eq_map, Function.iterate_succ_apply]

theorem fill_count (cnt : σ → Nat) (hf : ∀ s n, cnt (f s n).1 = cnt s + 1) (s : σ) (cur k : Nat) :
    cnt (fill step f s cur k).1 = cnt s + k := by
  induction k generalizing s cur with
  | zero => rfl
  | succ k ih => simp only [fill, ih, hf]; omega

end Fill

theorem iterate_add (d c i : Nat) : (· + d)^[i] c = c + d * i := by
  induction i with
  | zero => rfl
  | succ i ih => rw [Function.iterate_succ_apply', ih, Nat.mul_succ, Nat.add_assoc]

theorem iterate_double (tg : Target) {c : Nat} (hc : tg.wrap c = c) (j : Nat) :
    (fun c => tg.wrap (c * 2))^[j] c = tg.wrap (c * 2 ^ j) := by
  induction j with
  | zero => simpa using hc.symm
  | succ j ih =>
    rw [Function.iterate_succ_apply', ih, Nat.pow_succ, ← Nat.mul_assoc]
    exact Nat.mod_mul_mod

/-! ## The two runs -/

/-- `Multiples<T>`: the classes `starting_size + 16 * i`. -/
@[ext] structure Multiples (T : Type) where
  startingSize : Nat
  maxSize : Nat
  classes : List T

namespace Multiples

/-- `Multiples::init_conserve`. -/
def initConserve (start nClasses : Nat) (f : σ → Nat → σ × T) (s : σ) : σ × Multiples T :=
  let startingSize := roundUp start
  let r := fill (· + multiple) f s startingSize nClasses
  (r.1, ⟨startingSize, nClasses * multiple + startingSize - multiple, r.2.1⟩)

/-- `Multiples::get_raw`: the index of `round_up(n)`. -/
def getRaw (t : Multiples T) (n : Nat) : Nat := (roundUp n - t.startingSize) / multiple

/-- `Multiples::max_key`. -/
def maxKey (t : Multiples T) : Nat := t.maxSize

variable (start nClasses : Nat) (f : σ → Nat → σ × T) (s : σ)

@[simp] theorem initConserve_startingSize : (initConserve start nClasses f s).2.startingSize = roundUp start := rfl

@[simp] theorem initConserve_maxKey :
    (initConserve start nClasses f s).2.maxKey = nClasses * 16 + roundUp start - 16 := rfl

@[simp] theorem initConserve_length : (initConserve start nClasses f s).2.classes.length = nClasses := by
  simp [initConserve]

/-- `max_size` is the last class `round_up(start) + 16 * (n - 1)`. -/
theorem maxKey_eq_last (h : 1 ≤ nClasses) :
    (initConserve start nClasses f s).2.maxKey = roundUp start + 16 * (nClasses - 1) := by
  simp only [initConserve_maxKey]; omega

/-- `Clone for Multiples`: `Multiples::init` from the same starting size and class count, each
class a clone of `self.get(size)` (`default` past the end, where the code reads out of bounds). -/
def clone [Inhabited T] (t : Multiples T) : Multiples T :=
  (initConserve t.startingSize t.classes.length
    (fun (u : Unit) size => (u, t.classes[t.getRaw size]?.getD default)) ()).2

/-- Cloning a map `init_conserve` built gives it back: `round_up` keeps the starting size, and
`get_raw` finds every class at the size it was built for. -/
theorem clone_initConserve_eq [Inhabited T] : (initConserve start nClasses f s).2.clone = (initConserve start nClasses f s).2 := by
  have hr : roundUp (roundUp start) = roundUp start := roundUp_of_dvd (roundUp_spec start).2.2
  apply Multiples.ext
  · simp [clone, hr]
  · simp [clone, initConserve, hr]
  · simp only [clone, initConserve, fill_stateless, initConserve_length, hr]
    apply List.ext_getElem (by simp)
    intro i _ h₂
    have hi : getRaw (initConserve start nClasses f s).2 (roundUp start + multiple * i) = i := by
      simp only [getRaw, initConserve_startingSize, multiple_eq,
        roundUp_of_dvd (show (roundUp start + 16 * i) % 16 = 0 by have := (roundUp_spec start).2.2; omega)]
      omega
    simp only [List.getElem_map, List.getElem_range, iterate_add]
    simp only [initConserve] at hi
    rw [hi, List.getElem?_eq_getElem h₂]; rfl

end Multiples

/-- `PowersOfTwo<T>`: the classes `starting_size * 2 ^ j`. -/
@[ext] structure PowersOfTwo (T : Type) where
  startingSize : Nat
  maxSize : Nat
  classes : List T

namespace PowersOfTwo

/-- `PowersOfTwo::init_conserve`: from `start.next_power_of_two()` (`PowersOfTwo::new`),
`cur_size *= 2` after each class, and `max_size = cur_size / 2` after the loop. -/
def initConserve (tg : Target) (start nClasses : Nat) (f : σ → Nat → σ × T) (s : σ) :
    σ × PowersOfTwo T :=
  let startingSize := start.nextPowerOfTwo
  let r := fill (fun c => tg.wrap (c * 2)) f s startingSize nClasses
  (r.1, ⟨startingSize, r.2.2 / 2, r.2.1⟩)

/-- `PowersOfTwo::get_raw`: `trailing_zeros(next_power_of_two(k)) - trailing_zeros(starting_size)`.
Above `2 ^ 63` the `usize` `next_power_of_two` is `0`, whose 64 trailing zeros are those of
`2 ^ 64`, so the unwrapped value gives the same index. -/
def getRaw (t : PowersOfTwo T) (k : Nat) : Nat :=
  trailingZeros k.nextPowerOfTwo - trailingZeros t.startingSize

/-- `PowersOfTwo::max_key`. -/
def maxKey (t : PowersOfTwo T) : Nat := t.maxSize

variable (tg : Target) (start nClasses : Nat) (f : σ → Nat → σ × T) (s : σ)

@[simp] theorem initConserve_startingSize :
    (initConserve tg start nClasses f s).2.startingSize = start.nextPowerOfTwo := rfl

@[simp] theorem initConserve_length : (initConserve tg start nClasses f s).2.classes.length = nClasses := by
  simp [initConserve]

theorem initConserve_maxKey (hP : tg.wrap start.nextPowerOfTwo = start.nextPowerOfTwo) :
    (initConserve tg start nClasses f s).2.maxKey = tg.wrap (start.nextPowerOfTwo * 2 ^ nClasses) / 2 := by
  simp only [initConserve, maxKey, fill_last, iterate_double tg hP]

/-- `max_size` is the last class `starting_size * 2 ^ (n - 1)` whenever the doubling after it
still fits in `usize`. -/
theorem maxKey_of_fits (hn : 0 < nClasses) (hfit : tg.Fits (start.nextPowerOfTwo * 2 ^ nClasses)) :
    (initConserve tg start nClasses f s).2.maxKey = start.nextPowerOfTwo * 2 ^ (nClasses - 1) := by
  have hP : tg.Fits start.nextPowerOfTwo := by
    rcases hfit with h | h
    · exact .inl h
    · exact .inr (Nat.lt_of_le_of_lt (Nat.le_mul_of_pos_right _ (Nat.two_pow_pos _)) h)
  obtain ⟨m, rfl⟩ : ∃ m, nClasses = m + 1 := ⟨nClasses - 1, by omega⟩
  rw [initConserve_maxKey _ _ _ _ _ (Target.wrap_of_fits hP), Target.wrap_of_fits hfit, Nat.pow_succ,
    ← Nat.mul_assoc, Nat.mul_div_cancel _ (by decide), Nat.add_sub_cancel]

/-- `Clone for PowersOfTwo`: `PowersOfTwo::init` from the same starting size and class count, each
class a clone of `self.get(size)` (`default` past the end, where the code reads out of bounds). -/
def clone [Inhabited T] (tg : Target) (t : PowersOfTwo T) : PowersOfTwo T :=
  (initConserve tg t.startingSize t.classes.length
    (fun (u : Unit) size => (u, t.classes[t.getRaw size]?.getD default)) ()).2

/-- Cloning a map `init_conserve` built gives it back when its last class is representable:
`next_power_of_two` keeps the starting size, and `get_raw` finds every class at the size it was
built for. -/
theorem clone_initConserve_of_fits [Inhabited T] (hfit : tg.Fits (start.nextPowerOfTwo * 2 ^ (nClasses - 1))) :
    (initConserve tg start nClasses f s).2.clone tg = (initConserve tg start nClasses f s).2 := by
  have hP : start.nextPowerOfTwo.nextPowerOfTwo = start.nextPowerOfTwo := by
    rw [nextPowerOfTwo_eq_clog start, nextPowerOfTwo_two_pow]
  apply PowersOfTwo.ext
  · simp [clone, hP]
  · simp [clone, initConserve, hP, fill_last]
  · simp only [clone, initConserve, fill_stateless, initConserve_length, hP]
    apply List.ext_getElem (by simp)
    intro j h₁ h₂
    have hj : j < nClasses := by simpa using h₁
    have hfj : tg.Fits (start.nextPowerOfTwo * 2 ^ j) :=
      hfit.mono (Nat.mul_le_mul_left _ (Nat.pow_le_pow_right (by decide) (by omega)))
    have hS : tg.wrap start.nextPowerOfTwo = start.nextPowerOfTwo :=
      Target.wrap_of_fits (hfit.mono (Nat.le_mul_of_pos_right _ (Nat.two_pow_pos _)))
    have hi : getRaw (initConserve tg start nClasses f s).2 (start.nextPowerOfTwo * 2 ^ j) = j := by
      simp only [getRaw, initConserve_startingSize, nextPowerOfTwo_eq_clog start, ← Nat.pow_add,
        nextPowerOfTwo_two_pow, trailingZeros_two_pow]
      omega
    simp only [List.getElem_map, List.getElem_range, iterate_double tg hS, Target.wrap_of_fits hfj]
    simp only [initConserve] at hi
    rw [hi, List.getElem?_eq_getElem h₂]; rfl

/-- The powers of two of the 108-class map on a 64-bit target, whose `max_key` wraps, clone back. -/
theorem clone_initConserve_of_fits_wrapping :
    Target.linux64.Fits ((2 ^ 10).nextPowerOfTwo * 2 ^ (54 - 1)) ∧
      (initConserve Target.linux64 (2 ^ 10) 54 (fun (u : Unit) n => (u, n)) ()).2.clone Target.linux64 =
        (initConserve Target.linux64 (2 ^ 10) 54 (fun (u : Unit) n => (u, n)) ()).2 := by
  have hfit : Target.linux64.Fits ((2 ^ 10).nextPowerOfTwo * 2 ^ (54 - 1)) := by
    rw [nextPowerOfTwo_two_pow]; exact .inr (by decide)
  exact ⟨hfit, clone_initConserve_of_fits _ _ _ _ _ hfit⟩

end PowersOfTwo

/-! ## The tiered map -/

/-- A slot of the map: what `get_raw` points at. -/
inductive Slot where
  | word
  | small (i : Nat)
  | medium (j : Nat)
  deriving DecidableEq, Repr

/-- `TieredSizeClasses<T>`. -/
@[ext] structure TieredSizeClasses (T : Type) where
  wordObjs : Option T
  smallObjs : Multiples T
  mediumObjs : PowersOfTwo T

namespace TieredSizeClasses

/-- `n_small_classes`: the multiples of 16 from `start` up to the small cutoff, at most half the
classes. -/
def nSmallClasses (start nClasses : Nat) : Nat :=
  min (elfmallocSmallCutoff / multiple - start / multiple) (nClasses / 2)

/-- `TieredSizeClasses::init_conserve`: the multiples, then the powers of two from just above
the last multiple, then `f3(8)` for `word_objs` in the default build. -/
def initConserve (tg : Target) (start nClasses : Nat) (f : σ → Nat → σ × T) (s : σ) :
    σ × TieredSizeClasses T :=
  let nSmall := nSmallClasses start nClasses
  let nMedium := nClasses - nSmall
  let small := Multiples.initConserve start nSmall f s
  let medium := PowersOfTwo.initConserve tg (small.2.maxKey + 1) nMedium f small.1
  if tg.wordObjs then
    let word := f medium.1 8
    (word.1, ⟨some word.2, small.2, medium.2⟩)
  else (medium.1, ⟨none, small.2, medium.2⟩)

/-- `TieredSizeClasses::get_raw`. The default build tests `n <= 8` first; the C API build on
macOS and 64-bit Windows has no word class and starts at the multiples. -/
def getRaw (tg : Target) (t : TieredSizeClasses T) (n : Nat) : Slot :=
  if tg.wordObjs ∧ n ≤ 8 then .word
  else if n ≤ t.smallObjs.maxKey then .small (t.smallObjs.getRaw n)
  else .medium (t.mediumObjs.getRaw n)

/-- `TieredSizeClasses::max_key`. -/
def maxKey (t : TieredSizeClasses T) : Nat := t.mediumObjs.maxKey

/-- The class at a slot, when the slot exists (`get_raw` does not check). -/
def get? (t : TieredSizeClasses T) : Slot → Option T
  | .word => t.wordObjs
  | .small i => t.smallObjs.classes[i]?
  | .medium j => t.mediumObjs.classes[j]?

/-- `foreach`: the classes in the order it visits them. -/
def foreach (t : TieredSizeClasses T) : List T :=
  t.wordObjs.toList ++ t.smallObjs.classes ++ t.mediumObjs.classes

/-- `foreach` visits exactly the classes at the map's slots. -/
theorem mem_foreach {t : TieredSizeClasses T} {x : T} : x ∈ t.foreach ↔ ∃ k, t.get? k = some x := by
  simp only [foreach, List.mem_append, Option.mem_toList]
  rw [List.mem_iff_getElem?, List.mem_iff_getElem?]
  constructor
  · rintro ((h | ⟨i, h⟩) | ⟨j, h⟩)
    exacts [⟨.word, h⟩, ⟨.small i, h⟩, ⟨.medium j, h⟩]
  · rintro ⟨k, h⟩
    cases k with
    | word => exact .inl (.inl h)
    | small i => exact .inl (.inr ⟨i, h⟩)
    | medium j => exact .inr ⟨j, h⟩

/-- The size a slot's class is built for, read as an unbounded natural. -/
def classSize (t : TieredSizeClasses T) : Slot → Nat
  | .word => 8
  | .small i => t.smallObjs.startingSize + multiple * i
  | .medium j => t.mediumObjs.startingSize * 2 ^ j

/-- The subtraction `get_raw n` computes does not underflow: `round_up(n) - starting_size` in the
small run, the difference of trailing zeros in the medium run. -/
def NoUnderflow (tg : Target) (t : TieredSizeClasses T) (n : Nat) : Prop :=
  match t.getRaw tg n with
  | .word => True
  | .small _ => t.smallObjs.startingSize ≤ roundUp n
  | .medium _ => trailingZeros t.mediumObjs.startingSize ≤ trailingZeros n.nextPowerOfTwo

section Init
variable (tg : Target) (start nClasses : Nat) (f : σ → Nat → σ × T) (s : σ)

@[simp] theorem initConserve_smallObjs : (initConserve tg start nClasses f s).2.smallObjs =
    (Multiples.initConserve start (nSmallClasses start nClasses) f s).2 := by
  unfold initConserve; split <;> rfl

@[simp] theorem initConserve_mediumObjs : (initConserve tg start nClasses f s).2.mediumObjs =
    (PowersOfTwo.initConserve tg ((Multiples.initConserve start (nSmallClasses start nClasses) f s).2.maxKey + 1)
      (nClasses - nSmallClasses start nClasses) f (Multiples.initConserve start (nSmallClasses start nClasses) f s).1).2 := by
  unfold initConserve; split <;> rfl

theorem initConserve_wordObjs : (initConserve tg start nClasses f s).2.wordObjs =
    if tg.wordObjs then some (f (PowersOfTwo.initConserve tg
      ((Multiples.initConserve start (nSmallClasses start nClasses) f s).2.maxKey + 1)
      (nClasses - nSmallClasses start nClasses) f (Multiples.initConserve start (nSmallClasses start nClasses) f s).1).1 8).2
    else none := by
  unfold initConserve; split <;> rfl

theorem nSmallClasses_le : nSmallClasses start nClasses ≤ nClasses / 2 := Nat.min_le_right _ _

/-- `init_conserve` calls `f` once per class, and once more for `word_objs` in the default build. -/
theorem initConserve_count (cnt : σ → Nat) (hf : ∀ s n, cnt (f s n).1 = cnt s + 1) :
    cnt (initConserve tg start nClasses f s).1 = cnt s + nClasses + (if tg.wordObjs then 1 else 0) := by
  have := nSmallClasses_le start nClasses
  unfold initConserve
  split <;> simp only [hf, PowersOfTwo.initConserve, Multiples.initConserve, fill_count _ _ cnt hf, if_true,
    if_false, *] <;> omega

/-- In the unbounded reading every class holds what `f` returned on its `classSize`. -/
theorem initConserve_get? (hu : tg.usizeMod = 0) {k : Slot} {x : T}
    (h : (initConserve tg start nClasses f s).2.get? k = some x) :
    ∃ s', x = (f s' ((initConserve tg start nClasses f s).2.classSize k)).2 := by
  have hwrap : ∀ n, tg.wrap n = n := fun n => by simp [Target.wrap, hu]
  cases k with
  | word =>
    simp only [get?, initConserve_wordObjs] at h
    split at h
    · exact ⟨_, (Option.some.inj h).symm⟩
    · cases h
  | small i =>
    simp only [get?, initConserve_smallObjs, Multiples.initConserve] at h
    obtain ⟨s', hs'⟩ := fill_getElem? _ f h
    exact ⟨s', by rw [hs', iterate_add]; simp [classSize]⟩
  | medium j =>
    simp only [get?, initConserve_mediumObjs, PowersOfTwo.initConserve] at h
    obtain ⟨s', hs'⟩ := fill_getElem? _ f h
    exact ⟨s', by rw [hs', iterate_double tg (hwrap _), hwrap]; simp [classSize]⟩

end Init

/-! ## Lookup in the map `init_conserve` builds -/

/-- The shape `init_conserve` builds for `1 ≤ start ≤ 16` and at least two classes, sizes read as
unbounded naturals: `ns` classes `16, 32, ..., 16 * ns`, then `nm` powers of two from the first
one above `16 * ns`. -/
structure Layout (t : TieredSizeClasses T) (ns nm : Nat) : Prop where
  ns_pos : 0 < ns
  ns_le : ns ≤ 4096
  nm_pos : 0 < nm
  small_start : t.smallObjs.startingSize = 16
  small_max : t.smallObjs.maxKey = 16 * ns
  small_len : t.smallObjs.classes.length = ns
  medium_start : t.mediumObjs.startingSize = (16 * ns + 1).nextPowerOfTwo
  medium_len : t.mediumObjs.classes.length = nm
  max_key : t.maxKey = (16 * ns + 1).nextPowerOfTwo * 2 ^ (nm - 1)

/-- `init_conserve` builds a `Layout` whenever the doubling after the last class fits in
`usize`, as it always does when sizes are read as unbounded naturals. -/
theorem initConserve_layout {tg : Target} {start nClasses : Nat} (h1 : 1 ≤ start) (h16 : start ≤ 16)
    (hn : 2 ≤ nClasses) (hfit : tg.Fits ((16 * nSmallClasses start nClasses + 1).nextPowerOfTwo *
      2 ^ (nClasses - nSmallClasses start nClasses))) (f : σ → Nat → σ × T) (s : σ) :
    Layout (initConserve tg start nClasses f s).2 (nSmallClasses start nClasses)
      (nClasses - nSmallClasses start nClasses) := by
  have hr : roundUp start = 16 := by simp only [roundUp, multiple_eq]; omega
  have hns : 0 < nSmallClasses start nClasses := by
    simp only [nSmallClasses, elfmallocSmallCutoff_eq, multiple_eq]; omega
  have hle := nSmallClasses_le start nClasses
  have hmax : (Multiples.initConserve start (nSmallClasses start nClasses) f s).2.maxKey =
      16 * nSmallClasses start nClasses := by simp only [Multiples.initConserve_maxKey, hr]; omega
  refine ⟨hns, by simp only [nSmallClasses, elfmallocSmallCutoff_eq, multiple_eq]; omega, by omega, by simp [hr], by simp [hmax], by simp,
    by simp [hmax], by simp, ?_⟩
  rw [maxKey, initConserve_mediumObjs, PowersOfTwo.maxKey_of_fits _ _ _ _ _ (by omega) (by rwa [hmax])]
  rw [hmax]

theorem lt_two_pow_clog_succ (x : Nat) : x < 2 ^ Nat.clog 2 (x + 1) := by
  rw [← nextPowerOfTwo_eq_clog]; exact le_nextPowerOfTwo _

namespace Layout
variable {tg : Target} {t : TieredSizeClasses T} {ns nm : Nat}

theorem medium_start_pow (L : Layout t ns nm) :
    t.mediumObjs.startingSize = 2 ^ Nat.clog 2 (16 * ns + 1) := by
  rw [L.medium_start, nextPowerOfTwo_eq_clog]


theorem medium_getRaw (L : Layout t ns nm) (n : Nat) :
    t.mediumObjs.getRaw n = Nat.clog 2 n - Nat.clog 2 (16 * ns + 1) := by
  simp only [PowersOfTwo.getRaw, L.medium_start_pow, nextPowerOfTwo_eq_clog, trailingZeros_two_pow]

theorem isSome_get? (L : Layout t ns nm) (hword : t.wordObjs.isSome) (k : Slot) :
    (t.get? k).isSome ↔ (match k with | .word => True | .small i => i < ns | .medium j => j < nm) := by
  cases k <;> simp [get?, hword, Option.isSome_iff_ne_none, L.small_len, L.medium_len]

/-- The class `get_raw` picks in the default build: 8, then `round_up(n)`, then
`next_power_of_two(n)`. -/
theorem classSize_getRaw (L : Layout t ns nm) (hw : tg.wordObjs = true) (n : Nat) :
    t.classSize (t.getRaw tg n) =
      if n ≤ 8 then 8 else if n ≤ 16 * ns then roundUp n else n.nextPowerOfTwo := by
  unfold getRaw
  by_cases h8 : n ≤ 8
  · simp [hw, h8, classSize]
  by_cases hs : n ≤ 16 * ns
  · have := roundUp_spec n
    simp only [hw, h8, hs, L.small_max, classSize, Multiples.getRaw, L.small_start, true_and,
      if_false, if_true, multiple_eq]
    omega
  · have hc := Nat.clog_mono_right 2 (show 16 * ns + 1 ≤ n by omega)
    simp only [hw, h8, hs, L.small_max, classSize, L.medium_getRaw, L.medium_start_pow, ← Nat.pow_add,
      nextPowerOfTwo_eq_clog, true_and, if_false]
    congr 1; omega

/-- For `n ≤ max_key`, `get_raw` picks an existing slot, with no underflow, whose class covers
`n`. -/
theorem getRaw_spec (L : Layout t ns nm) (hw : tg.wordObjs = true) (hword : t.wordObjs.isSome)
    {n : Nat} (hn : n ≤ t.maxKey) :
    (t.get? (t.getRaw tg n)).isSome ∧ t.NoUnderflow tg n ∧ n ≤ t.classSize (t.getRaw tg n) := by
  have hcov : n ≤ t.classSize (t.getRaw tg n) := by
    rw [L.classSize_getRaw hw]
    have := roundUp_spec n; have := le_nextPowerOfTwo n
    split_ifs <;> omega
  have hmax : Nat.clog 2 n ≤ Nat.clog 2 (16 * ns + 1) + (nm - 1) := by
    rw [L.max_key, nextPowerOfTwo_eq_clog, ← Nat.pow_add] at hn
    exact (Nat.le_pow_iff_clog_le (by decide)).1 hn
  have := L.nm_pos
  have := roundUp_spec n
  refine ⟨?_, ?_, hcov⟩ <;> simp only [NoUnderflow, getRaw, hw, true_and, L.small_max] <;>
    split_ifs with h8 hs
  · simp [get?, hword]
  · have := roundUp_le hs (by omega)
    simp only [L.isSome_get? hword, Multiples.getRaw, L.small_start, multiple_eq]; omega
  · have := Nat.clog_mono_right 2 (show 16 * ns + 1 ≤ n by omega)
    simp only [L.isSome_get? hword, L.medium_getRaw]; omega
  · trivial
  · simp only [L.small_start]; omega
  · have := Nat.clog_mono_right 2 (show 16 * ns + 1 ≤ n by omega)
    simp only [L.medium_start_pow, nextPowerOfTwo_eq_clog, trailingZeros_two_pow]; omega

/-- No class that covers `n` is smaller than the one `get_raw` picks. -/
theorem getRaw_least (L : Layout t ns nm) (hw : tg.wordObjs = true) (hword : t.wordObjs.isSome)
    {n : Nat} {k : Slot} (hk : (t.get? k).isSome) (hle : n ≤ t.classSize k) :
    t.classSize (t.getRaw tg n) ≤ t.classSize k := by
  rw [L.classSize_getRaw hw]
  have := roundUp_spec n
  have hP := lt_two_pow_clog_succ (16 * ns)
  rw [L.isSome_get? hword] at hk
  have := L.ns_pos
  cases k with
  | word => simp only [classSize] at hle; simp [classSize, hle]
  | small i =>
    simp only [classSize, L.small_start, multiple_eq] at hle hk ⊢
    have := roundUp_le hle (by omega)
    split_ifs <;> omega
  | medium j =>
    simp only [classSize, L.medium_start_pow, ← Nat.pow_add] at hle ⊢
    have := Nat.pow_le_pow_right (show 0 < 2 by decide) (Nat.le_add_right (Nat.clog 2 (16 * ns + 1)) j)
    split_ifs with h8 hs
    · omega
    · have := roundUp_le hs (by omega); omega
    · exact nextPowerOfTwo_le hle

/-- Every class finds its own slot. -/
theorem getRaw_classSize (L : Layout t ns nm) (hw : tg.wordObjs = true) (hword : t.wordObjs.isSome)
    {k : Slot} (hk : (t.get? k).isSome) : t.getRaw tg (t.classSize k) = k := by
  rw [L.isSome_get? hword] at hk
  have hP := lt_two_pow_clog_succ (16 * ns)
  have := L.ns_pos
  cases k with
  | word => simp [getRaw, hw, classSize]
  | small i =>
    have h8 : ¬ 16 + 16 * i ≤ 8 := by omega
    simp only [getRaw, classSize, L.small_start, multiple_eq, L.small_max, hw, h8, true_and, if_false,
      show 16 + 16 * i ≤ 16 * ns by omega, if_true, Multiples.getRaw, roundUp_of_dvd (show (16 + 16 * i) % 16 = 0 by omega)]
    congr 1; omega
  | medium j =>
    have := Nat.pow_le_pow_right (show 0 < 2 by decide) (Nat.le_add_right (Nat.clog 2 (16 * ns + 1)) j)
    simp only [getRaw, classSize, L.medium_start_pow, ← Nat.pow_add, L.small_max, hw, true_and,
      show ¬ 2 ^ (Nat.clog 2 (16 * ns + 1) + j) ≤ 8 by omega, show ¬ 2 ^ (Nat.clog 2 (16 * ns + 1) + j) ≤ 16 * ns by omega,
      if_false, L.medium_getRaw, Nat.clog_pow 2 _ (by decide)]
    congr 1; omega

/-- Every class of at least 64 KiB is a power of two: the medium classes, and the last multiple
when there are 4096 of them. -/
theorem isPowerOfTwo_of_large (L : Layout t ns nm) (hword : t.wordObjs.isSome) {k : Slot}
    (hk : (t.get? k).isSome) (hs : elfmallocSmallCutoff ≤ t.classSize k) : isPowerOfTwo (t.classSize k) = true := by
  rw [L.isSome_get? hword] at hk
  rw [elfmallocSmallCutoff_eq] at hs
  have := L.ns_le
  cases k with
  | word => simp [classSize] at hs
  | small i =>
    simp only [classSize, L.small_start, multiple_eq] at hs ⊢
    rw [show 16 + 16 * i = 2 ^ 16 by omega]; exact isPowerOfTwo_two_pow 16
  | medium j =>
    simp only [classSize, L.medium_start_pow, ← Nat.pow_add]; exact isPowerOfTwo_two_pow _

/-- `max_key` is the largest class: the last power of two is at least every class of the map. -/
theorem classSize_le_maxKey (L : Layout t ns nm) {k : Slot} (hk : (t.get? k).isSome) :
    t.classSize k ≤ t.maxKey := by
  have hP := lt_two_pow_clog_succ (16 * ns)
  have hlast : 2 ^ Nat.clog 2 (16 * ns + 1) ≤ t.maxKey := by
    rw [L.max_key, nextPowerOfTwo_eq_clog]; exact Nat.le_mul_of_pos_right _ (Nat.two_pow_pos _)
  have := L.ns_pos
  cases k with
  | word => simp only [classSize]; omega
  | small i =>
    simp only [get?, Option.isSome_iff_ne_none, ne_eq, List.getElem?_eq_none_iff, not_le, L.small_len] at hk
    simp only [classSize, L.small_start, multiple_eq]; omega
  | medium j =>
    simp only [get?, Option.isSome_iff_ne_none, ne_eq, List.getElem?_eq_none_iff, not_le, L.medium_len] at hk
    rw [classSize, L.max_key, L.medium_start]
    exact Nat.mul_le_mul_left _ (Nat.pow_le_pow_right (by decide) (show j ≤ nm - 1 by omega))

/-! ### The C API build on macOS and 64-bit Windows

There is no word class: `get_raw` sends every request up to the last multiple to the multiples,
`0` included, whose `round_up` is `0`. -/

theorem classSize_medium_getRaw (L : Layout t ns nm) {n : Nat} (hs : 16 * ns < n) :
    t.classSize (.medium (t.mediumObjs.getRaw n)) = n.nextPowerOfTwo := by
  have hc := Nat.clog_mono_right 2 (show 16 * ns + 1 ≤ n by omega)
  simp only [classSize, L.medium_getRaw, L.medium_start_pow, ← Nat.pow_add, nextPowerOfTwo_eq_clog]
  congr 1; omega

theorem isSome_get?_noWord (L : Layout t ns nm) (hword : t.wordObjs = none) (k : Slot) :
    (t.get? k).isSome ↔ (match k with | .word => False | .small i => i < ns | .medium j => j < nm) := by
  cases k <;> simp [get?, hword, Option.isSome_iff_ne_none, L.small_len, L.medium_len]

theorem classSize_getRaw_noWord (L : Layout t ns nm) (hw : tg.wordObjs = false) {n : Nat} (h1 : 1 ≤ n) :
    t.classSize (t.getRaw tg n) = if n ≤ 16 * ns then roundUp n else n.nextPowerOfTwo := by
  unfold getRaw
  by_cases hs : n ≤ 16 * ns
  · have := roundUp_spec n
    simp only [hw, hs, L.small_max, classSize, Multiples.getRaw, L.small_start, Bool.false_eq_true,
      false_and, if_false, if_true, multiple_eq]
    omega
  · simp only [hw, hs, L.small_max, Bool.false_eq_true, false_and, if_false]
    exact L.classSize_medium_getRaw (by omega)

theorem getRaw_spec_noWord (L : Layout t ns nm) (hw : tg.wordObjs = false) {n : Nat} (h1 : 1 ≤ n)
    (hn : n ≤ t.maxKey) :
    (t.get? (t.getRaw tg n)).isSome ∧ t.NoUnderflow tg n ∧ n ≤ t.classSize (t.getRaw tg n) := by
  have hcov : n ≤ t.classSize (t.getRaw tg n) := by
    rw [L.classSize_getRaw_noWord hw h1]
    have := roundUp_spec n; have := le_nextPowerOfTwo n
    split_ifs <;> omega
  have hmax : Nat.clog 2 n ≤ Nat.clog 2 (16 * ns + 1) + (nm - 1) := by
    rw [L.max_key, nextPowerOfTwo_eq_clog, ← Nat.pow_add] at hn
    exact (Nat.le_pow_iff_clog_le (by decide)).1 hn
  have := L.nm_pos
  have := roundUp_spec n
  refine ⟨?_, ?_, hcov⟩ <;>
    simp only [NoUnderflow, getRaw, hw, Bool.false_eq_true, false_and, if_false, L.small_max] <;>
    split_ifs with hs
  · have := roundUp_le hs (by omega)
    simp only [get?, Multiples.getRaw, L.small_start, multiple_eq, Option.isSome_iff_ne_none,
      ne_eq, List.getElem?_eq_none_iff, L.small_len, not_le]; omega
  · have := Nat.clog_mono_right 2 (show 16 * ns + 1 ≤ n by omega)
    simp only [get?, L.medium_getRaw, Option.isSome_iff_ne_none, ne_eq, List.getElem?_eq_none_iff,
      L.medium_len, not_le]; omega
  · simp only [L.small_start]; omega
  · have := Nat.clog_mono_right 2 (show 16 * ns + 1 ≤ n by omega)
    simp only [L.medium_start_pow, nextPowerOfTwo_eq_clog, trailingZeros_two_pow]; omega

theorem getRaw_least_noWord (L : Layout t ns nm) (hw : tg.wordObjs = false) (hword : t.wordObjs = none)
    {n : Nat} (h1 : 1 ≤ n) {k : Slot} (hk : (t.get? k).isSome) (hle : n ≤ t.classSize k) :
    t.classSize (t.getRaw tg n) ≤ t.classSize k := by
  rw [L.classSize_getRaw_noWord hw h1]
  have := roundUp_spec n
  have hP := lt_two_pow_clog_succ (16 * ns)
  rw [L.isSome_get?_noWord hword] at hk
  cases k with
  | word => exact hk.elim
  | small i =>
    simp only [classSize, L.small_start, multiple_eq] at hle hk ⊢
    have := roundUp_le hle (by omega)
    split_ifs <;> omega
  | medium j =>
    simp only [classSize, L.medium_start_pow, ← Nat.pow_add] at hle ⊢
    have := Nat.pow_le_pow_right (show 0 < 2 by decide) (Nat.le_add_right (Nat.clog 2 (16 * ns + 1)) j)
    split_ifs with hs
    · have := roundUp_le hs (by omega); omega
    · exact nextPowerOfTwo_le hle

theorem getRaw_classSize_noWord (L : Layout t ns nm) (hw : tg.wordObjs = false) (hword : t.wordObjs = none)
    {k : Slot} (hk : (t.get? k).isSome) : t.getRaw tg (t.classSize k) = k := by
  rw [L.isSome_get?_noWord hword] at hk
  have hP := lt_two_pow_clog_succ (16 * ns)
  cases k with
  | word => exact hk.elim
  | small i =>
    simp only [getRaw, classSize, L.small_start, multiple_eq, L.small_max, hw, Bool.false_eq_true, false_and,
      if_false, show 16 + 16 * i ≤ 16 * ns by omega, if_true, Multiples.getRaw,
      roundUp_of_dvd (show (16 + 16 * i) % 16 = 0 by omega)]
    congr 1; omega
  | medium j =>
    have := Nat.pow_le_pow_right (show 0 < 2 by decide) (Nat.le_add_right (Nat.clog 2 (16 * ns + 1)) j)
    simp only [getRaw, classSize, L.medium_start_pow, ← Nat.pow_add, L.small_max, hw, Bool.false_eq_true,
      false_and, show ¬ 2 ^ (Nat.clog 2 (16 * ns + 1) + j) ≤ 16 * ns by omega, if_false, L.medium_getRaw,
      Nat.clog_pow 2 _ (by decide)]
    congr 1; omega

/-- Without a word class, `get_raw(0)` goes to the multiples and `round_up(0) - starting_size`
underflows. -/
theorem not_noUnderflow_zero (L : Layout t ns nm) (hw : tg.wordObjs = false) : ¬ t.NoUnderflow tg 0 := by
  simp [NoUnderflow, getRaw, hw, L.small_max, L.small_start, roundUp]

end Layout

/-! ## Rebuilding a map from itself -/

/-- Building the map again with the same parameters and a closure that looks each size up in it
gives the map back: what `ElfMalloc::clone` does, class by class. -/
theorem initConserve_lookup {tg : Target} {start nClasses : Nat} (hw : tg.wordObjs = true)
    (h1 : 1 ≤ start) (h16 : start ≤ 16) (hn : 2 ≤ nClasses)
    (hfit : tg.Fits ((16 * nSmallClasses start nClasses + 1).nextPowerOfTwo *
      2 ^ (nClasses - nSmallClasses start nClasses))) (f : σ → Nat → σ × T) (s : σ) (d : T) :
    (initConserve tg start nClasses (fun (u : Unit) n => (u, ((initConserve tg start nClasses f s).2.get?
      ((initConserve tg start nClasses f s).2.getRaw tg n)).getD d)) ()).2 =
      (initConserve tg start nClasses f s).2 := by
  have L := initConserve_layout h1 h16 hn hfit f s
  have hword : (initConserve tg start nClasses f s).2.wordObjs.isSome := by simp [initConserve_wordObjs, hw]
  have hr : roundUp start = 16 := by simp only [roundUp, multiple_eq]; omega
  suffices key : ∀ g : Nat → T, (∀ k x, (initConserve tg start nClasses f s).2.get? k = some x →
      g ((initConserve tg start nClasses f s).2.classSize k) = x) →
      (initConserve tg start nClasses (fun (u : Unit) n => (u, g n)) ()).2 = (initConserve tg start nClasses f s).2 from
    key _ fun k x hk => by rw [L.getRaw_classSize hw hword (by rw [hk]; rfl), hk]; rfl
  intro g hlook
  have hsmall : (List.range (nSmallClasses start nClasses)).map (fun i => g ((· + multiple)^[i] (roundUp start))) =
      (initConserve tg start nClasses f s).2.smallObjs.classes := by
    apply List.ext_getElem (by simp [L.small_len])
    intro i _ h₂
    have := hlook (.small i) _ (List.getElem?_eq_getElem h₂)
    simp only [classSize, L.small_start, multiple_eq] at this
    simpa [iterate_add, hr] using this
  have hmedium : (List.range (nClasses - nSmallClasses start nClasses)).map
      (fun j => g ((fun c => tg.wrap (c * 2))^[j] (16 * nSmallClasses start nClasses + 1).nextPowerOfTwo)) =
      (initConserve tg start nClasses f s).2.mediumObjs.classes := by
    apply List.ext_getElem (by simp [L.medium_len])
    intro j h₁ h₂
    have hj : j < nClasses - nSmallClasses start nClasses := by simpa using h₁
    have hfj : tg.Fits ((16 * nSmallClasses start nClasses + 1).nextPowerOfTwo * 2 ^ j) :=
      hfit.mono (Nat.mul_le_mul_left _ (Nat.pow_le_pow_right (by decide) hj.le))
    have := hlook (.medium j) _ (List.getElem?_eq_getElem h₂)
    simp only [classSize, L.medium_start] at this
    simpa [iterate_double tg (Target.wrap_of_fits (hfit.mono (Nat.le_mul_of_pos_right _ (Nat.two_pow_pos _)))),
      Target.wrap_of_fits hfj] using this
  obtain ⟨x, hx⟩ := Option.isSome_iff_exists.1 hword
  apply TieredSizeClasses.ext
  · rw [initConserve_wordObjs, if_pos hw, hx, ← hlook .word x hx]; rfl
  · apply Multiples.ext
    · simp
    · simp [Multiples.initConserve]
    · rw [← hsmall]; simp [Multiples.initConserve, fill_stateless]
  · apply PowersOfTwo.ext
    · simp
    · simp [PowersOfTwo.initConserve, fill_last]
    · rw [← hmedium]; simp [PowersOfTwo.initConserve, fill_stateless, hr, Nat.mul_comm]

/-- What a lookup in a map built with constructor `f` promises: the classes are `8`,
`round_up(start) + 16 i` and `next_power_of_two(small max + 1) * 2 ^ j`, each holding what `f`
built for its size; for every `n ≤ max_key()` `get_raw(n)` picks an existing slot, with no
underflow, holding the least class `≥ n`; and every class picks its own slot. -/
def LookupSpec (tg : Target) (start : Nat) (f : σ → Nat → σ × T) (t : TieredSizeClasses T) : Prop :=
  (t.classSize .word = 8 ∧ (∀ i, t.classSize (.small i) = roundUp start + 16 * i) ∧
    ∀ j, t.classSize (.medium j) = (t.smallObjs.maxKey + 1).nextPowerOfTwo * 2 ^ j) ∧
  (∀ k x, t.get? k = some x → ∃ s', x = (f s' (t.classSize k)).2) ∧
  (∀ n, n ≤ t.maxKey → (t.get? (t.getRaw tg n)).isSome ∧ t.NoUnderflow tg n ∧
    n ≤ t.classSize (t.getRaw tg n) ∧
    ∀ k, (t.get? k).isSome → n ≤ t.classSize k → t.classSize (t.getRaw tg n) ≤ t.classSize k) ∧
  ∀ k, (t.get? k).isSome → t.getRaw tg (t.classSize k) = k

/-- The default build, sizes read as unbounded naturals, `1 ≤ start ≤ 16`, at least two classes. -/
theorem getRaw_least_class (tg : Target) (hw : tg.wordObjs = true) (hu : tg.usizeMod = 0)
    {start nClasses : Nat} (h1 : 1 ≤ start) (h16 : start ≤ 16) (hn : 2 ≤ nClasses)
    (f : σ → Nat → σ × T) (s : σ) :
    LookupSpec tg start f (initConserve tg start nClasses f s).2 := by
  have L := initConserve_layout h1 h16 hn (.inl hu) f s
  have hword : (initConserve tg start nClasses f s).2.wordObjs.isSome := by simp [initConserve_wordObjs, hw]
  refine ⟨⟨rfl, fun i => by simp [classSize], fun j => by simp [classSize]⟩,
    fun k x => initConserve_get? tg start nClasses f s hu, fun n hn => ?_,
    fun k hk => L.getRaw_classSize hw hword hk⟩
  obtain ⟨h₁, h₂, h₃⟩ := L.getRaw_spec hw hword hn
  exact ⟨h₁, h₂, h₃, fun k hk hle => L.getRaw_least hw hword hk hle⟩

/-- `ElfMalloc::new`'s arguments, `start_from = 8` and 25 classes, on the default build. -/
theorem getRaw_least_class_new :
    let tg : Target := ⟨true, 0, 4096⟩
    tg.wordObjs = true ∧ tg.usizeMod = 0 ∧ 1 ≤ 8 ∧ 8 ≤ 16 ∧ 2 ≤ 25 ∧
      LookupSpec tg 8 (fun (u : Unit) n => (u, n)) (initConserve tg 8 25 (fun (u : Unit) n => (u, n)) ()).2 :=
  ⟨rfl, rfl, by decide, by decide, by decide,
    getRaw_least_class ⟨true, 0, 4096⟩ rfl rfl (by decide) (by decide) (by decide) _ ()⟩

/-- The C API build on macOS and 64-bit Windows, `1 ≤ start ≤ 16`, at least two classes, the
doubling after the last class representable: the map has no word class; for every
`1 ≤ n ≤ max_key()` `get_raw(n)` picks an existing slot, with no underflow, holding the least
class `≥ n`; every class picks its own slot; and `get_raw(0)` underflows. -/
theorem getRaw_least_class_noWord (tg : Target) (hw : tg.wordObjs = false) {start nClasses : Nat}
    (h1 : 1 ≤ start) (h16 : start ≤ 16) (hn : 2 ≤ nClasses)
    (hfit : tg.Fits ((16 * nSmallClasses start nClasses + 1).nextPowerOfTwo *
      2 ^ (nClasses - nSmallClasses start nClasses))) (f : σ → Nat → σ × T) (s : σ) :
    let t := (initConserve tg start nClasses f s).2
    t.wordObjs = none ∧
      (∀ n, 1 ≤ n → n ≤ t.maxKey → (t.get? (t.getRaw tg n)).isSome ∧ t.NoUnderflow tg n ∧
        n ≤ t.classSize (t.getRaw tg n) ∧
        ∀ k, (t.get? k).isSome → n ≤ t.classSize k → t.classSize (t.getRaw tg n) ≤ t.classSize k) ∧
      (∀ k, (t.get? k).isSome → t.getRaw tg (t.classSize k) = k) ∧ ¬ t.NoUnderflow tg 0 := by
  intro t
  have L := initConserve_layout h1 h16 hn hfit f s
  have hword : t.wordObjs = none := by simp [t, initConserve_wordObjs, hw]
  refine ⟨hword, fun n h1 hn => ?_, fun k hk => L.getRaw_classSize_noWord hw hword hk, L.not_noUnderflow_zero hw⟩
  obtain ⟨h₁, h₂, h₃⟩ := L.getRaw_spec_noWord hw h1 hn
  exact ⟨h₁, h₂, h₃, fun k hk hle => L.getRaw_least_noWord hw hword h1 hk hle⟩

/-- `ElfMalloc::new`'s arguments on a 64-bit C API build. -/
theorem getRaw_least_class_noWord_new :
    let tg : Target := ⟨false, 2 ^ 64, 4096⟩
    tg.wordObjs = false ∧ 1 ≤ 8 ∧ 8 ≤ 16 ∧ 2 ≤ 25 ∧
      tg.Fits ((16 * nSmallClasses 8 25 + 1).nextPowerOfTwo * 2 ^ (25 - nSmallClasses 8 25)) ∧
      (initConserve tg 8 25 (fun (u : Unit) n => (u, n)) ()).2.wordObjs = none ∧
      ¬ (initConserve tg 8 25 (fun (u : Unit) n => (u, n)) ()).2.NoUnderflow tg 0 := by
  intro tg
  have hfit : tg.Fits ((16 * nSmallClasses 8 25 + 1).nextPowerOfTwo * 2 ^ (25 - nSmallClasses 8 25)) := by
    rw [show nSmallClasses 8 25 = 12 by decide, nextPowerOfTwo_eq_of (k := 8) (by decide) (by decide)]
    exact .inr (by decide)
  obtain ⟨hword, -, -, h0⟩ :=
    getRaw_least_class_noWord tg rfl (by decide) (by decide) (by decide) hfit (fun (u : Unit) n => (u, n)) ()
  exact ⟨rfl, by decide, by decide, by decide, hfit, hword, h0⟩

/-! ## `max_key` on a 64-bit target -/

/-- With `start_from = 8` and 108 classes on a 64-bit target every class fits in `usize`, the last
of the 54 powers of two being built for `2 ^ 63`; the doubling after it wraps `cur_size` to `0`,
so `max_key()` is `0`. -/
theorem maxKey_wraps_at_last_class :
    let t := (initConserve Target.linux64 8 108 (fun (u : Unit) n => (u, n)) ()).2
    (∀ k, (t.get? k).isSome → Target.linux64.Fits (t.classSize k)) ∧
      t.mediumObjs.classes.length = 54 ∧ t.get? (.medium 53) = some (2 ^ 63) ∧
      t.classSize (.medium 53) = 2 ^ 63 ∧ t.maxKey = 0 := by
  intro t
  have hns : nSmallClasses 8 108 = 54 := by decide
  have hP : ((Multiples.initConserve 8 54 (fun (u : Unit) n => (u, n)) ()).2.maxKey + 1).nextPowerOfTwo = 2 ^ 10 := by
    rw [Multiples.initConserve_maxKey, show roundUp 8 = 16 by decide]
    exact nextPowerOfTwo_eq_of (by decide) (by decide)
  have hw : Target.linux64.wrap (2 ^ 10) = 2 ^ 10 := by decide
  have hstart : t.mediumObjs.startingSize = 2 ^ 10 := by simp only [t, initConserve_mediumObjs, hns, hP,
    PowersOfTwo.initConserve_startingSize]
  have hlen : t.mediumObjs.classes.length = 54 := by
    simp only [t, initConserve_mediumObjs, PowersOfTwo.initConserve_length, hns]
  have hsome : (t.get? (.medium 53)).isSome := by
    simp only [get?, Option.isSome_iff_ne_none, ne_eq, List.getElem?_eq_none_iff, hlen]; decide
  refine ⟨fun k hk => .inr ?_, hlen, ?_, by rw [classSize, hstart]; decide, ?_⟩
  · cases k with
    | word => decide
    | small i =>
      simp only [get?, Option.isSome_iff_ne_none, ne_eq, List.getElem?_eq_none_iff, not_le, t,
        initConserve_smallObjs, Multiples.initConserve_length, hns] at hk
      simp only [classSize, t, initConserve_smallObjs, Multiples.initConserve_startingSize, multiple_eq,
        show roundUp 8 = 16 by decide, Target.linux64]
      omega
    | medium j =>
      simp only [get?, Option.isSome_iff_ne_none, ne_eq, List.getElem?_eq_none_iff, not_le, hlen] at hk
      rw [classSize, hstart, ← Nat.pow_add]
      exact Nat.lt_of_le_of_lt (Nat.pow_le_pow_right (by decide) (show 10 + j ≤ 63 by omega)) (by decide)
  · obtain ⟨x, hx⟩ := Option.isSome_iff_exists.1 hsome
    rw [hx]
    simp only [get?, t, initConserve_mediumObjs, hns, PowersOfTwo.initConserve, hP] at hx
    obtain ⟨_, rfl⟩ := fill_getElem? _ _ hx
    rw [iterate_double _ hw]
    exact congrArg some (show Target.linux64.wrap (2 ^ 10 * 2 ^ 53) = 2 ^ 63 by decide)
  · simp only [maxKey, t, initConserve_mediumObjs, hns]
    rw [PowersOfTwo.initConserve_maxKey _ _ _ _ _ (by rw [hP]; exact hw), hP]
    decide

end TieredSizeClasses

end Elfmalloc
