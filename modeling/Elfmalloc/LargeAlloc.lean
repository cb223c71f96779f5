import Elfmalloc.Basic
/-!
# Tags and the large-object path

Memory as `get_type` and `large_alloc` read and write it: the record at each address (only the
slot at a 2 MiB boundary is ever read) and the set of mapped bytes. `large_alloc::alloc` maps
`n_pages` units of 64 KiB at `mem`, writes an `AllocInfo` header at `round_to_page(res - 1)` and
returns `res = mem + 2 MiB`; `free` reads the header back and unmaps `region_size` bytes from
`base`.

`alloc_header`: for every 64 KiB-aligned base and every size whose region fits in `usize`, the
header lies between `mem` and `res`, the user bytes lie in the mapping, and the readers see the
header. `free` unmaps the region rounded to OS pages only, so when `region_size` is not a
multiple of 64 KiB the tail of the mapping outlives it (`free_alloc_keeps_tail`).
-/

namespace Elfmalloc

/-- `large_alloc::AllocInfo`. Its `ty` comes first (`repr(C)`), where `get_type` reads. -/
structure AllocInfo where
  ty : AllocType
  base : Nat
  regionSize : Nat
  deriving DecidableEq, Repr

/-- `mem::size_of::<AllocInfo>()` on a 64-bit target: the tag padded to 8 bytes, a pointer and a
`usize`. -/
def sizeOfAllocInfo : Nat := 24

/-- Memory as the allocator sees it: the record a read at each address yields (a tag read takes
its `ty`), and which bytes are mapped. -/
structure Mem where
  info : Nat → AllocInfo
  mapped : Nat → Bool

namespace Mem

/-- `ptr::write` of an `AllocInfo` at `a`. -/
def write (m : Mem) (a : Nat) (v : AllocInfo) : Mem :=
  { m with info := fun b => if b = a then v else m.info b }

/-- Modelled from the spec: `MmapSource::carve` (the `sources` module) maps `len` bytes at `mem`,
an address the OS chooses. -/
def carve (m : Mem) (mem len : Nat) : Mem :=
  { m with mapped := fun b => m.mapped b || (mem ≤ b && b < mem + len) }

/-- Modelled from the spec: `mmap::unmap(base, len)` is `munmap`, which removes every OS page
that meets `[base, base + len)`. -/
def unmap (m : Mem) (base len osPage : Nat) : Mem :=
  { m with mapped := fun b => m.mapped b && !(base ≤ b && b < base + (len + osPage - 1) / osPage * osPage) }

@[simp] theorem write_info (m : Mem) (a b : Nat) (v : AllocInfo) :
    (m.write a v).info b = if b = a then v else m.info b := rfl
@[simp] theorem write_mapped (m : Mem) (a : Nat) (v : AllocInfo) : (m.write a v).mapped = m.mapped := rfl
@[simp] theorem carve_info (m : Mem) (mem len : Nat) : (m.carve mem len).info = m.info := rfl
@[simp] theorem carve_mapped (m : Mem) (mem len b : Nat) :
    (m.carve mem len).mapped b = (m.mapped b || (mem ≤ b && b < mem + len)) := rfl
@[simp] theorem unmap_info (m : Mem) (base len p : Nat) : (m.unmap base len p).info = m.info := rfl
@[simp] theorem unmap_mapped (m : Mem) (base len p b : Nat) : (m.unmap base len p).mapped b =
    (m.mapped b && !(base ≤ b && b < base + (len + p - 1) / p * p)) := rfl

end Mem

/-- `get_type`: the tag at `round_to_page(item - 1)`. -/
def getType (m : Mem) (item : Nat) : AllocType := (m.info (roundToPage (item - 1))).ty

namespace LargeAlloc

/-- `get_commitment_mut`: the header slot of `item`. -/
def getCommitmentMut (item : Nat) : Nat := roundToPage (item - 1)

/-- `get_commitment`: `(region_size, base)` from the header. -/
def getCommitment (m : Mem) (item : Nat) : Nat × Nat :=
  ((m.info (getCommitmentMut item)).regionSize, (m.info (getCommitmentMut item)).base)

/-- `get_size`: `region_size - ELFMALLOC_PAGE_SIZE`. -/
def getSize (tg : Target) (m : Mem) (item : Nat) : Nat := tg.wsub (getCommitment m item).1 elfmallocPageSize

/-- `n_pages`: the 64 KiB units that cover `region_size`. -/
def nPages (regionSize : Nat) : Nat :=
  regionSize / elfmallocSmallCutoff + min 1 (regionSize % elfmallocSmallCutoff)

/-- `large_alloc::alloc(size)`, with `src.carve(n_pages)` returning `mem`. -/
def alloc (tg : Target) (m : Mem) (mem size : Nat) : Nat × Mem :=
  let regionSize := tg.wrap (size + elfmallocPageSize)
  let res := mem + elfmallocPageSize
  (res, (m.carve mem (nPages regionSize * elfmallocSmallCutoff)).write (getCommitmentMut res)
    ⟨.Large, mem, regionSize⟩)

/-- `large_alloc::free`: a zero header is a no-op; otherwise unmap `region_size` bytes at `base`. -/
def free (tg : Target) (m : Mem) (item : Nat) : Mem :=
  if (getCommitment m item).1 = 0 ∧ (getCommitment m item).2 = 0 then m
  else m.unmap (getCommitment m item).2 (getCommitment m item).1 tg.osPageSize

theorem getType_eq (m : Mem) (item : Nat) : getType m item = (m.info (getCommitmentMut item)).ty := rfl

theorem nPages_spec (r : Nat) :
    r ≤ nPages r * elfmallocSmallCutoff ∧ nPages r * elfmallocSmallCutoff < r + elfmallocSmallCutoff := by
  simp only [nPages, elfmallocSmallCutoff_eq]; omega

/-- The header slot of `mem + 2 MiB`, for a 64 KiB-aligned `mem`, lies in `[mem, mem + 2 MiB - 64 KiB]`. -/
theorem getCommitmentMut_bounds {mem : Nat} (hmem : mem % elfmallocSmallCutoff = 0) :
    mem ≤ getCommitmentMut (mem + elfmallocPageSize) ∧
      getCommitmentMut (mem + elfmallocPageSize) + elfmallocSmallCutoff ≤ mem + elfmallocPageSize := by
  simp only [getCommitmentMut, roundToPage, elfmallocPageSize_eq, elfmallocSmallCutoff_eq] at hmem ⊢
  omega

section Alloc
variable (tg : Target) (m : Mem) (mem size : Nat)

@[simp] theorem alloc_fst : (alloc tg m mem size).1 = mem + elfmallocPageSize := rfl

/-- Every reader of the header slot sees what `alloc` wrote. -/
theorem alloc_info_slot : (alloc tg m mem size).2.info (getCommitmentMut (mem + elfmallocPageSize)) =
    ⟨.Large, mem, tg.wrap (size + elfmallocPageSize)⟩ := by
  simp [alloc]

theorem alloc_mapped (b : Nat) : (alloc tg m mem size).2.mapped b =
    (m.mapped b || (mem ≤ b && b < mem + nPages (tg.wrap (size + elfmallocPageSize)) * elfmallocSmallCutoff)) := by
  simp [alloc]

end Alloc

/-- `large_alloc::alloc` for a 64 KiB-aligned base and a size whose region fits in `usize`: the
header lies between `mem` and `res`, the user bytes lie in the carved units and are mapped,
`get_type` and `get_commitment` read the header back, `get_size` gives `size`, and `res` is
64 KiB-aligned. -/
theorem alloc_header (tg : Target) (m : Mem) {mem size : Nat} (hmem : mem % elfmallocSmallCutoff = 0)
    (hfit : tg.Fits (size + elfmallocPageSize)) :
    let r := alloc tg m mem size
    let h := getCommitmentMut r.1
    r.1 = mem + elfmallocPageSize ∧ mem ≤ h ∧ h + sizeOfAllocInfo ≤ r.1 ∧
      r.1 + size ≤ mem + nPages (size + elfmallocPageSize) * elfmallocSmallCutoff ∧
      (∀ b, r.1 ≤ b → b < r.1 + size → r.2.mapped b = true) ∧
      getType r.2 r.1 = .Large ∧ getCommitment r.2 r.1 = (size + elfmallocPageSize, mem) ∧
      getSize tg r.2 r.1 = size ∧ r.1 % elfmallocSmallCutoff = 0 := by
  intro r h
  have hr : r.1 = mem + elfmallocPageSize := rfl
  have hb := getCommitmentMut_bounds hmem
  have hn := nPages_spec (size + elfmallocPageSize)
  have hslot := alloc_info_slot tg m mem size
  rw [Target.wrap_of_fits hfit] at hslot
  have hget : getCommitment r.2 (mem + elfmallocPageSize) = (size + elfmallocPageSize, mem) := by
    simp only [r, getCommitment, hslot]
  simp only [h, hr]
  refine ⟨trivial, hb.1, ?_, by omega, fun b h1 h2 => ?_, ?_, hget, ?_, ?_⟩
  · simp only [sizeOfAllocInfo, elfmallocSmallCutoff_eq] at hb ⊢; omega
  · simp only [r, alloc_mapped, Target.wrap_of_fits hfit, Bool.or_eq_true, Bool.and_eq_true, decide_eq_true_eq]
    omega
  · rw [getType_eq, hslot]
  · rw [getSize, hget, Target.wsub_of_le (Nat.le_add_left _ _) hfit, Nat.add_sub_cancel]
  · simp only [elfmallocPageSize_eq, elfmallocSmallCutoff_eq] at hmem ⊢; omega

/-- `free` reads back the header `alloc` wrote and unmaps `region_size` bytes from `mem`. -/
theorem free_alloc (tg : Target) (m : Mem) {mem size : Nat} (hmem : mem % elfmallocSmallCutoff = 0)
    (hfit : tg.Fits (size + elfmallocPageSize)) :
    free tg (alloc tg m mem size).2 (alloc tg m mem size).1 =
      (alloc tg m mem size).2.unmap mem (size + elfmallocPageSize) tg.osPageSize := by
  obtain ⟨-, -, -, -, -, -, hget, -⟩ := alloc_header tg m hmem hfit
  rw [free, hget, if_neg (by simp)]

/-- After `free (alloc size)` the carved bytes past `region_size`, rounded up to OS pages, are
still mapped. -/
theorem free_alloc_keeps_tail (tg : Target) (m : Mem) {mem size b : Nat}
    (hmem : mem % elfmallocSmallCutoff = 0) (hfit : tg.Fits (size + elfmallocPageSize))
    (h₁ : mem + (size + elfmallocPageSize + tg.osPageSize - 1) / tg.osPageSize * tg.osPageSize ≤ b)
    (h₂ : b < mem + nPages (size + elfmallocPageSize) * elfmallocSmallCutoff) :
    (free tg (alloc tg m mem size).2 (alloc tg m mem size).1).mapped b = true := by
  rw [free_alloc tg m hmem hfit, Mem.unmap_mapped, alloc_mapped, Target.wrap_of_fits hfit]
  generalize (size + elfmallocPageSize + tg.osPageSize - 1) / tg.osPageSize * tg.osPageSize = q at h₁ ⊢
  generalize nPages (size + elfmallocPageSize) * elfmallocSmallCutoff = c at h₂ ⊢
  simp only [Bool.and_eq_true, Bool.or_eq_true, Bool.not_eq_true', Bool.and_eq_false_iff,
    decide_eq_true_eq, decide_eq_false_iff_not]
  omega

/-- When the OS pages of `region_size` are exactly the carved units and the OS had nothing mapped
there, `free (alloc size)` leaves the mapped bytes as they were. -/
theorem free_alloc_restores (tg : Target) (m : Mem) {mem size : Nat}
    (hmem : mem % elfmallocSmallCutoff = 0) (hfit : tg.Fits (size + elfmallocPageSize))
    (hexact : (size + elfmallocPageSize + tg.osPageSize - 1) / tg.osPageSize * tg.osPageSize =
      nPages (size + elfmallocPageSize) * elfmallocSmallCutoff)
    (hfresh : ∀ b, mem ≤ b → b < mem + nPages (size + elfmallocPageSize) * elfmallocSmallCutoff → m.mapped b = false)
    (b : Nat) : (free tg (alloc tg m mem size).2 (alloc tg m mem size).1).mapped b = m.mapped b := by
  rw [free_alloc tg m hmem hfit, Mem.unmap_mapped, alloc_mapped, Target.wrap_of_fits hfit, hexact]
  generalize nPages (size + elfmallocPageSize) * elfmallocSmallCutoff = c at hfresh ⊢
  by_cases h : mem ≤ b ∧ b < mem + c
  · simp [hfresh b h.1 h.2, h.1, h.2]
  · cases hb : m.mapped b <;> simp only [hb, Bool.false_and, Bool.true_and, Bool.false_or, Bool.true_or, Bool.not_eq_true', Bool.and_eq_false_iff, decide_eq_false_iff_not, Bool.or_eq_true] <;> omega

/-- A 64 KiB request at a 2 MiB base on 4 KiB pages fills its 33 units exactly: `free` unmaps
them all, and the last one is unmapped again. -/
theorem free_alloc_restores_exact :
    let m : Mem := ⟨fun _ => ⟨.Large, 0, 0⟩, fun _ => false⟩
    (2 ^ 21 % elfmallocSmallCutoff = 0 ∧ Target.linux64.Fits (65536 + elfmallocPageSize) ∧
      (65536 + elfmallocPageSize + Target.linux64.osPageSize - 1) / Target.linux64.osPageSize *
        Target.linux64.osPageSize = nPages (65536 + elfmallocPageSize) * elfmallocSmallCutoff ∧
      ∀ b, 2 ^ 21 ≤ b → b < 2 ^ 21 + nPages (65536 + elfmallocPageSize) * elfmallocSmallCutoff → m.mapped b = false) ∧
      (free Target.linux64 (alloc Target.linux64 m (2 ^ 21) 65536).2 (alloc Target.linux64 m (2 ^ 21) 65536).1).mapped
        (2 ^ 21 + 2162687) = m.mapped (2 ^ 21 + 2162687) := by
  intro m
  have hexact : (65536 + elfmallocPageSize + Target.linux64.osPageSize - 1) / Target.linux64.osPageSize *
      Target.linux64.osPageSize = nPages (65536 + elfmallocPageSize) * elfmallocSmallCutoff := by decide
  exact ⟨⟨by decide, .inr (by decide), hexact, fun _ _ _ => rfl⟩,
    free_alloc_restores _ m (by decide) (.inr (by decide)) hexact (fun _ _ _ => rfl) _⟩

/-- A one-byte request at a 2 MiB base on 4 KiB pages: `alloc` maps 33 units of 64 KiB, `free`
unmaps `2 MiB + 1` rounded to 2101248 bytes, and the byte at `mem + 2101248` stays mapped. -/
theorem free_alloc_one_leaks :
    let m : Mem := ⟨fun _ => ⟨.Large, 0, 0⟩, fun _ => false⟩
    let r := alloc Target.linux64 m (2 ^ 21) 1
    m.mapped (2 ^ 21 + 2101248) = false ∧ (free Target.linux64 r.2 r.1).mapped (2 ^ 21 + 2101248) = true :=
  ⟨rfl, free_alloc_keeps_tail _ _ (by decide) (.inr (by decide)) (by decide) (by decide)⟩

/-- On a 64-bit target a request within 2 MiB of `2 ^ 64` wraps `region_size` below 2 MiB: the
carved units end before `res`, so the first user byte is mapped only if it already was. -/
theorem alloc_wraps (m : Mem) {mem size : Nat} (hsize : size < 2 ^ 64)
    (hwrap : 2 ^ 64 ≤ size + elfmallocPageSize) :
    (alloc Target.linux64 m mem size).2.mapped (alloc Target.linux64 m mem size).1 =
      m.mapped (mem + elfmallocPageSize) := by
  rw [alloc_mapped, alloc_fst]
  simp only [Target.wrap, Target.linux64, nPages, elfmallocSmallCutoff_eq, elfmallocPageSize_eq] at hwrap ⊢
  have : ¬ (mem + 2097152 < mem + ((size + 2097152) % 2 ^ 64 / 65536 + min 1 ((size + 2097152) % 2 ^ 64 % 65536)) * 65536) := by
    omega
  simp only [this, decide_False, Bool.and_false, Bool.or_false]

end LargeAlloc

end Elfmalloc
