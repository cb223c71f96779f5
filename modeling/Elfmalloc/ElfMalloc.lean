import Elfmalloc.SizeClasses
import Elfmalloc.LargeAlloc
/-!
# `ElfMalloc`: construction and dispatch

`new_internal` builds the size-class map with a closure that writes one `Metadata` record per
call into a buffer mapped for `n_classes` of them. `alloc` sends a request to the class
`get_raw` picks or to `large_alloc`; `free` recovers the page size from the pointer
(`get_page_size`: the alignment fast path, then the tag), asks the slag for its object size and
frees into that class's slot; `realloc` composes them.

`new_internal` writes its records at `0, 1, ...`, one per class, each describing its class, and
no two caches share one (`newInternal_records`); dropping a `DynamicAllocator` runs
`drop_in_place` once on each class (`DynamicAllocator.drop_each_class_once`).

The slab layer is outside `general.rs`. Where the code calls it, the model takes what it returns
as an argument: `find item page_size` is the `object_size` in the metadata of the slag
`Slag::find(item, page_size)` returns. `Dest` records where a request goes.
-/

namespace Elfmalloc

/-- `PageAlloc`, as far as `general.rs` reads it: the page size of its backing memory and the tag
it stamps at the base of its 2 MiB regions. -/
structure PageAlloc where
  pageSize : Nat
  ty : AllocType
  deriving DecidableEq, Repr, Inhabited

/-- Modelled from the spec: `compute_metadata` (the `slag` module) keeps the object size, the page
size, the usable size and the tag it is given. -/
structure Metadata where
  objectSize : Nat
  pageSize : Nat
  usableSize : Nat
  ty : AllocType
  deriving DecidableEq, Repr

/-- `ObjectAlloc<PageAlloc>`: the cache of one class, with its `Metadata` at index `meta` of
`new_internal`'s buffer and its page source. Its `clone` shares both. -/
structure ObjectAlloc where
  meta : Nat
  pages : PageAlloc
  deriving DecidableEq, Repr, Inhabited

/-- The state of `new_internal`'s closure: `meta_pointer`, in `Metadata` records from the start
of the buffer, and the records written so far with their index. -/
structure MetaBuf where
  metaPointer : Nat
  writes : List (Nat × Metadata)

/-- `ElfMalloc<PageAlloc, TieredSizeClasses<ObjectAlloc>>`. -/
structure ElfMalloc where
  smallPages : PageAlloc
  largePages : PageAlloc
  allocs : TieredSizeClasses ObjectAlloc
  maxSize : Nat
  startFrom : Nat
  nClasses : Nat

/-- Where a request goes: a class's cache, or `large_alloc`. -/
inductive Dest where
  | cache (k : Slot)
  | large
  deriving DecidableEq, Repr

namespace ElfMalloc

/-! ## Construction -/

/-- `(u_size, pa, ty)` as `new_internal` picks them for a class of `size` bytes. -/
def classPages (paSmall paLarge : PageAlloc) (size : Nat) : Nat × PageAlloc × AllocType :=
  if size < elfmallocSmallCutoff then (paSmall.pageSize, paSmall, .SmallSlag)
  else (paLarge.pageSize, paLarge, .BigSlag)

/-- The closure `new_internal` hands to `AM::init`: it writes the class's `Metadata` at
`meta_pointer`, bumps it, and builds the cache over the chosen page source. -/
def newInternalCtor (paSmall paLarge : PageAlloc) (st : MetaBuf) (size : Nat) : MetaBuf × ObjectAlloc :=
  let c := classPages paSmall paLarge size
  (⟨st.metaPointer + 1, st.writes ++ [(st.metaPointer, ⟨size, c.2.1.pageSize, c.1, c.2.2⟩)]⟩,
    ⟨st.metaPointer, c.2.1⟩)

/-- `ElfMalloc::new_internal`, without the slab's `cutoff_factor`; the closure's final state is the
metadata buffer after construction, which is mapped for `n_classes` records. -/
def newInternal (tg : Target) (paSmall paLarge : PageAlloc) (startFrom nClasses : Nat) : MetaBuf × ElfMalloc :=
  let am := TieredSizeClasses.initConserve tg startFrom nClasses (newInternalCtor paSmall paLarge) ⟨0, []⟩
  (am.1, ⟨paSmall, paLarge, am.2, am.2.maxKey, startFrom, nClasses⟩)

/-- `new`'s small pages: 256 KiB units in 2 MiB-aligned groups stamped `SmallSlag`. -/
def newSmallPages : PageAlloc := ⟨elfmallocSmallPageSize, .SmallSlag⟩

/-- `new`'s large pages: 2 MiB units stamped `BigSlag`. -/
def newLargePages : PageAlloc := ⟨elfmallocPageSize, .BigSlag⟩

/-- `ElfMalloc::new`. -/
def new (tg : Target) : ElfMalloc := (newInternal tg newSmallPages newLargePages 8 25).2

/-- `Clone for ElfMalloc`: a fresh map whose class for each size is a clone of
`self.allocs.get(size)`, over the same page sources. -/
def clone (tg : Target) (e : ElfMalloc) : ElfMalloc :=
  ⟨e.smallPages, e.largePages,
    (TieredSizeClasses.initConserve tg e.startFrom e.nClasses
      (fun (u : Unit) size => (u, (e.allocs.get? (e.allocs.getRaw tg size)).getD default)) ()).2,
    e.maxSize, e.startFrom, e.nClasses⟩

/-! ## Dispatch -/

/-- `get_page_size`: a pointer off the 64 KiB grid is a small-slab object; otherwise the tag
decides, and `None` sends it to `large_alloc`. -/
def getPageSize (m : Mem) (item : Nat) : Option Nat :=
  if item % elfmallocSmallCutoff ≠ 0 then some elfmallocSmallPageSize
  else match getType m item with
    | .SmallSlag => some elfmallocSmallPageSize
    | .BigSlag => some elfmallocPageSize
    | .Large => none

/-- `get_page_size` with its fast path taken out: the tag at `round_to_page(item - 1)` alone
decides. The code reads the tag only for pointers on the 64 KiB grid. -/
def getPageSizeByTag (m : Mem) (item : Nat) : Option Nat :=
  match getType m item with
  | .SmallSlag => some elfmallocSmallPageSize
  | .BigSlag => some elfmallocPageSize
  | .Large => none

/-- The fast path answers as the tag does for a pointer on the 64 KiB grid, or in a region
stamped `SmallSlag`. -/
theorem getPageSize_eq_byTag {m : Mem} {p : Nat}
    (h : p % elfmallocSmallCutoff = 0 ∨ getType m p = .SmallSlag) : getPageSize m p = getPageSizeByTag m p := by
  unfold getPageSize getPageSizeByTag
  split_ifs with hp
  · rw [h.resolve_left hp]
  · rfl

/-- `ElfMalloc::alloc`. -/
def alloc (tg : Target) (e : ElfMalloc) (bytes : Nat) : Dest :=
  if bytes ≤ e.maxSize then .cache (e.allocs.getRaw tg bytes) else .large

/-- `ElfMalloc::free`, with the memory after it. -/
def free (tg : Target) (e : ElfMalloc) (find : Nat → Nat → Nat) (m : Mem) (item : Nat) : Dest × Mem :=
  match getPageSize m item with
  | some pageSize => (.cache (e.allocs.getRaw tg (find item pageSize)), m)
  | none => (.large, LargeAlloc.free tg m item)

end ElfMalloc

/-- `elfmalloc_get_layout(m_block, item)`, `m_block` having page size `blockPageSize`. -/
def elfmallocGetLayout (tg : Target) (find : Nat → Nat → Nat) (blockPageSize : Nat) (m : Mem)
    (item : Nat) : Nat × Nat :=
  match getType m item with
  | .SmallSlag | .BigSlag =>
    (find item blockPageSize, if isPowerOfTwo (find item blockPageSize) then find item blockPageSize else wordSize)
  | .Large => (LargeAlloc.getSize tg m item, tg.osPageSize)

/-- The page size of the `m_block` `global::get_layout` hands over: the small pages of the
thread's handle for `SmallSlag` and `Large`, its large pages for `BigSlag`. Every handle is a
clone of `ElfMalloc::new()`. -/
def globalBlockPageSize (m : Mem) (item : Nat) : Nat :=
  match getType m item with
  | .SmallSlag | .Large => ElfMalloc.newSmallPages.pageSize
  | .BigSlag => ElfMalloc.newLargePages.pageSize

/-- `global::get_layout`. -/
def globalGetLayout (tg : Target) (find : Nat → Nat → Nat) (m : Mem) (item : Nat) : Nat × Nat :=
  elfmallocGetLayout tg find (globalBlockPageSize m item) m item

namespace ElfMalloc

/-- What `ElfMalloc::realloc` does. -/
inductive Realloc where
  /-- `item` is null: the block `self.alloc(size)` returns. -/
  | alloc (size : Nat)
  /-- `new_size == 0`: `self.free(item)`, and null. -/
  | freed
  /-- The old block is large and aligned enough: `item` itself. -/
  | same
  /-- The block `self.alloc(size)` returns, with `copied` bytes copied over; `item` is freed. -/
  | moved (size copied : Nat)
  deriving DecidableEq, Repr

/-- `ElfMalloc::realloc`. It reads the old layout through `global::get_layout`; its own `alloc`
and `free` calls are the ones the outcome names. -/
def realloc (tg : Target) (find : Nat → Nat → Nat) (m : Mem) (item newSize newAlignment : Nat) : Realloc :=
  if item = 0 then
    .alloc (if newAlignment ≤ wordSize then newSize else tg.wrap newSize.nextPowerOfTwo)
  else if newSize = 0 then .freed
  else if newAlignment ≤ (globalGetLayout tg find m item).2 ∧ newSize ≤ (globalGetLayout tg find m item).1 then
    .same
  else
    let size := if wordSize < newAlignment then tg.wrap newSize.nextPowerOfTwo else newSize
    .moved size (min (globalGetLayout tg find m item).1 size)

/-- The layout `elfmalloc_get_layout` reports for the block `alloc(bytes)` hands back: its
class's object size for a cache (`slab_layout`), the request for the large path
(`largeAlloc_readBack`). -/
def allocLayout (tg : Target) (e : ElfMalloc) (bytes : Nat) : Nat × Nat :=
  match e.alloc tg bytes with
  | .cache k =>
    (e.allocs.classSize k, if isPowerOfTwo (e.allocs.classSize k) then e.allocs.classSize k else wordSize)
  | .large => (bytes, tg.osPageSize)

/-- The layout of the block `realloc` hands back; `none` for null. -/
def reallocLayout (tg : Target) (e : ElfMalloc) (find : Nat → Nat → Nat) (m : Mem) (item : Nat) :
    Realloc → Option (Nat × Nat)
  | .alloc size | .moved size _ => some (e.allocLayout tg size)
  | .same => some (globalGetLayout tg find m item)
  | .freed => none

end ElfMalloc

/-- What the slab layer promises of an object `p` of class `s` that a cache over page source
`pa` hands out: (I1) the tag at `round_to_page(p - 1)` is the one `pa` stamps, (I3) `p` is a
multiple of `s` when `s` is a power of two, and its slag's metadata reports `s`. -/
structure SlabObject (m : Mem) (find : Nat → Nat → Nat) (pa : PageAlloc) (s p : Nat) : Prop where
  tag : getType m p = pa.ty
  aligned : isPowerOfTwo s = true → p % s = 0
  objectSize : find p pa.pageSize = s

theorem slab_layout {tg : Target} {find : Nat → Nat → Nat} {m : Mem} {ps p : Nat}
    (ht : getType m p ≠ .Large) : elfmallocGetLayout tg find ps m p =
      (find p ps, if isPowerOfTwo (find p ps) then find p ps else wordSize) := by
  unfold elfmallocGetLayout; split <;> simp_all

namespace ElfMalloc

theorem free_of_getPageSize {tg : Target} {e : ElfMalloc} {find : Nat → Nat → Nat} {m : Mem} {p ps : Nat}
    (h : getPageSize m p = some ps) : e.free tg find m p = (.cache (e.allocs.getRaw tg (find p ps)), m) := by
  simp [free, h]

theorem alloc_eq_cache {tg : Target} {e : ElfMalloc} {n : Nat} {k : Slot} :
    e.alloc tg n = .cache k ↔ n ≤ e.maxSize ∧ e.allocs.getRaw tg n = k := by
  unfold alloc; split <;> simp [*]

@[simp] theorem newInternal_allocs (tg : Target) (paSmall paLarge : PageAlloc) (start nClasses : Nat) :
    (newInternal tg paSmall paLarge start nClasses).2.allocs =
      (TieredSizeClasses.initConserve tg start nClasses (newInternalCtor paSmall paLarge) ⟨0, []⟩).2 := rfl

@[simp] theorem newInternal_maxSize (tg : Target) (paSmall paLarge : PageAlloc) (start nClasses : Nat) :
    (newInternal tg paSmall paLarge start nClasses).2.maxSize =
      (newInternal tg paSmall paLarge start nClasses).2.allocs.maxKey := rfl

theorem newInternal_wordObjs (tg : Target) (hw : tg.wordObjs = true) (paSmall paLarge : PageAlloc)
    (start nClasses : Nat) : (newInternal tg paSmall paLarge start nClasses).2.allocs.wordObjs.isSome := by
  simp [TieredSizeClasses.initConserve_wordObjs, hw]

theorem nSmallClasses_new : TieredSizeClasses.nSmallClasses 8 25 = 12 := by decide

/-- `new()`'s map: twelve multiples of 16 up to 192, then thirteen powers of two from 256 to
1 MiB, on any target where `2 ^ 21` fits. -/
theorem new_layout {tg : Target} (hfit : tg.Fits (2 ^ 21)) : (new tg).allocs.Layout 12 13 := by
  have h := @TieredSizeClasses.initConserve_layout _ _ tg 8 25 (by decide) (by decide) (by decide)
    (by rw [nSmallClasses_new, nextPowerOfTwo_eq_of (k := 8) (by decide) (by decide)]; exact hfit)
    (newInternalCtor newSmallPages newLargePages) ⟨0, []⟩
  rwa [nSmallClasses_new] at h

theorem new_maxSize {tg : Target} (hfit : tg.Fits (2 ^ 21)) : (new tg).maxSize = 2 ^ 20 := by
  have h := (new_layout hfit).max_key
  rw [nextPowerOfTwo_eq_of (k := 8) (by decide) (by decide)] at h
  exact h

/-- `max_size`, as `new_internal` stores it, is `max_key()`, the powers of two's `max_size`: the
largest class built, `starting_size * 2 ^ (len - 1)`, whenever the doubling after that class
fits in `usize`. The multiples' `max_size` is their last class. -/
theorem maxSize_largest_class (tg : Target) (paSmall paLarge : PageAlloc) {start nClasses : Nat}
    (h1 : 1 ≤ start) (h16 : start ≤ 16) (hn : 2 ≤ nClasses)
    (hfit : tg.Fits ((16 * TieredSizeClasses.nSmallClasses start nClasses + 1).nextPowerOfTwo *
      2 ^ (nClasses - TieredSizeClasses.nSmallClasses start nClasses))) :
    let e := (newInternal tg paSmall paLarge start nClasses).2
    let last := e.allocs.mediumObjs.startingSize * 2 ^ (e.allocs.mediumObjs.classes.length - 1)
    e.allocs.mediumObjs.maxKey = last ∧ e.allocs.maxKey = last ∧ e.maxSize = last ∧
      (e.allocs.get? (.medium (e.allocs.mediumObjs.classes.length - 1))).isSome ∧
      (∀ k, (e.allocs.get? k).isSome → e.allocs.classSize k ≤ last) ∧
      e.allocs.smallObjs.maxKey = e.allocs.smallObjs.startingSize + 16 * (e.allocs.smallObjs.classes.length - 1) := by
  intro e last
  have L : e.allocs.Layout _ _ := TieredSizeClasses.initConserve_layout h1 h16 hn hfit (newInternalCtor paSmall paLarge) ⟨0, []⟩
  have hlast : e.allocs.maxKey = last := by
    rw [L.max_key]; simp only [last, L.medium_start, L.medium_len]
  refine ⟨hlast, hlast, hlast, ?_, fun k hk => hlast ▸ L.classSize_le_maxKey hk, ?_⟩
  · have := L.nm_pos
    simp only [TieredSizeClasses.get?, Option.isSome_iff_ne_none, ne_eq, List.getElem?_eq_none_iff, not_le,
      L.medium_len]
    omega
  · simp only [e, newInternal_allocs, TieredSizeClasses.initConserve_smallObjs]
    rw [Multiples.maxKey_eq_last _ _ _ _ L.ns_pos, Multiples.initConserve_startingSize, Multiples.initConserve_length]

theorem maxSize_largest_class_new :
    Target.linux64.Fits ((16 * TieredSizeClasses.nSmallClasses 8 25 + 1).nextPowerOfTwo *
      2 ^ (25 - TieredSizeClasses.nSmallClasses 8 25)) ∧
      (new Target.linux64).maxSize = (new Target.linux64).allocs.mediumObjs.startingSize *
        2 ^ ((new Target.linux64).allocs.mediumObjs.classes.length - 1) := by
  have hfit : Target.linux64.Fits ((16 * TieredSizeClasses.nSmallClasses 8 25 + 1).nextPowerOfTwo *
      2 ^ (25 - TieredSizeClasses.nSmallClasses 8 25)) := by
    rw [nSmallClasses_new, nextPowerOfTwo_eq_of (k := 8) (by decide) (by decide)]; exact .inr (by decide)
  exact ⟨hfit, (maxSize_largest_class Target.linux64 newSmallPages newLargePages (by decide) (by decide) (by decide)
    hfit).2.2.1⟩

/-- A clone of the instance `new_internal` builds is that instance: the same page sources and,
at every slot, the class `self.allocs.get(size)` finds there, which shares its metadata and pages. -/
theorem clone_newInternal (tg : Target) (hw : tg.wordObjs = true) {start nClasses : Nat} (h1 : 1 ≤ start)
    (h16 : start ≤ 16) (hn : 2 ≤ nClasses)
    (hfit : tg.Fits ((16 * TieredSizeClasses.nSmallClasses start nClasses + 1).nextPowerOfTwo *
      2 ^ (nClasses - TieredSizeClasses.nSmallClasses start nClasses))) (paSmall paLarge : PageAlloc) :
    clone tg (newInternal tg paSmall paLarge start nClasses).2 = (newInternal tg paSmall paLarge start nClasses).2 := by
  simp only [clone, newInternal]
  rw [TieredSizeClasses.initConserve_lookup hw h1 h16 hn hfit]

/-- Every thread's handle is a clone of `new()`, and equals it. -/
theorem clone_new {tg : Target} (hw : tg.wordObjs = true) (hfit : tg.Fits (2 ^ 21)) : clone tg (new tg) = new tg :=
  clone_newInternal tg hw (by decide) (by decide) (by decide)
    (by rw [nSmallClasses_new, nextPowerOfTwo_eq_of (k := 8) (by decide) (by decide)]; exact hfit) _ _

/-! ## The metadata buffer -/

/-- The closure runs once per class and once more for `word_objs`. -/
theorem newInternal_metaPointer (tg : Target) (paSmall paLarge : PageAlloc) (start nClasses : Nat) :
    (newInternal tg paSmall paLarge start nClasses).1.metaPointer = nClasses + if tg.wordObjs then 1 else 0 := by
  simpa using TieredSizeClasses.initConserve_count tg start nClasses (newInternalCtor paSmall paLarge) ⟨0, []⟩
    MetaBuf.metaPointer (fun _ _ => rfl)

theorem newInternal_word_write (tg : Target) (hw : tg.wordObjs = true) (paSmall paLarge : PageAlloc)
    (start nClasses : Nat) : (nClasses, ⟨8, paSmall.pageSize, paSmall.pageSize, .SmallSlag⟩) ∈
      (newInternal tg paSmall paLarge start nClasses).1.writes := by
  have key : ∀ st : MetaBuf, (newInternalCtor paSmall paLarge st 8).1.metaPointer = nClasses + 1 →
      (nClasses, ⟨8, paSmall.pageSize, paSmall.pageSize, .SmallSlag⟩) ∈ (newInternalCtor paSmall paLarge st 8).1.writes := by
    intro st h
    simp only [newInternalCtor, classPages, show 8 < elfmallocSmallCutoff by decide, if_true] at h ⊢
    rw [show nClasses = st.metaPointer by omega]
    exact List.mem_append_right _ (List.mem_singleton.2 rfl)
  have hmp := newInternal_metaPointer tg paSmall paLarge start nClasses
  simp only [newInternal, TieredSizeClasses.initConserve, hw, if_true] at hmp ⊢
  exact key _ hmp

/-- `ElfMalloc::new()` maps 25 records, and the closure writes a 26th, the word class's, at index
25. -/
theorem new_metadata_past_buffer :
    (newInternal Target.linux64 newSmallPages newLargePages 8 25).1.metaPointer = 26 ∧
      (25, ⟨8, elfmallocSmallPageSize, elfmallocSmallPageSize, .SmallSlag⟩) ∈
        (newInternal Target.linux64 newSmallPages newLargePages 8 25).1.writes :=
  ⟨newInternal_metaPointer _ _ _ _ _, newInternal_word_write _ rfl _ _ _ _⟩

/-- The record the closure writes for a class of `size` bytes: `compute_metadata` of the size, the
chosen page source's page size, `u_size` and the tag. -/
def classMetadata (paSmall paLarge : PageAlloc) (size : Nat) : Metadata :=
  let c := classPages paSmall paLarge size
  ⟨size, c.2.1.pageSize, c.1, c.2.2⟩

/-- The index of the record `new_internal` writes for the class at a slot, `ns` classes being
multiples: the multiples first, then the powers of two, then the word class. -/
def metaIndex (ns nClasses : Nat) : Slot → Nat
  | .word => nClasses
  | .small i => i
  | .medium j => ns + j

/-- From buffer state `st`, `fill` over the closure writes one record per size at `meta_pointer`,
`meta_pointer + 1`, ..., and the `i`-th cache points at the `i`-th record. -/
theorem fill_newInternalCtor (paSmall paLarge : PageAlloc) (step : Nat → Nat) (st : MetaBuf) (cur k : Nat) :
    (fill step (newInternalCtor paSmall paLarge) st cur k).1.metaPointer = st.metaPointer + k ∧
      (fill step (newInternalCtor paSmall paLarge) st cur k).1.writes = st.writes ++
        (List.range k).map (fun i => (st.metaPointer + i, classMetadata paSmall paLarge (step^[i] cur))) ∧
      (fill step (newInternalCtor paSmall paLarge) st cur k).2.1 =
        (List.range k).map fun i => ⟨st.metaPointer + i, (classPages paSmall paLarge (step^[i] cur)).2.1⟩ := by
  induction k generalizing st cur with
  | zero => simp [fill]
  | succ k ih =>
    obtain ⟨h₁, h₂, h₃⟩ := ih (newInternalCtor paSmall paLarge st cur).1 (step cur)
    simp only [fill, h₁, h₂, h₃, List.range_succ_eq_map, List.map_cons, List.map_map]
    simp [newInternalCtor, classMetadata, Function.comp_def, Function.iterate_succ_apply, Nat.add_assoc,
      Nat.add_comm 1]

section Records
variable (tg : Target) (paSmall paLarge : PageAlloc) (start nClasses : Nat)

@[simp] theorem fill_newInternalCtor_metaPointer (step : Nat → Nat) (st : MetaBuf) (cur k : Nat) :
    (fill step (newInternalCtor paSmall paLarge) st cur k).1.metaPointer = st.metaPointer + k :=
  (fill_newInternalCtor paSmall paLarge step st cur k).1

@[simp] theorem fill_newInternalCtor_writes (step : Nat → Nat) (st : MetaBuf) (cur k : Nat) :
    (fill step (newInternalCtor paSmall paLarge) st cur k).1.writes = st.writes ++
      (List.range k).map (fun i => (st.metaPointer + i, classMetadata paSmall paLarge (step^[i] cur))) :=
  (fill_newInternalCtor paSmall paLarge step st cur k).2.1

@[simp] theorem fill_newInternalCtor_classes (step : Nat → Nat) (st : MetaBuf) (cur k : Nat) :
    (fill step (newInternalCtor paSmall paLarge) st cur k).2.1 =
      (List.range k).map fun i => ⟨st.metaPointer + i, (classPages paSmall paLarge (step^[i] cur)).2.1⟩ :=
  (fill_newInternalCtor paSmall paLarge step st cur k).2.2

theorem newInternal_smallBuf :
    (Multiples.initConserve start (TieredSizeClasses.nSmallClasses start nClasses)
      (newInternalCtor paSmall paLarge) ⟨0, []⟩).1 =
      ⟨TieredSizeClasses.nSmallClasses start nClasses,
        (List.range (TieredSizeClasses.nSmallClasses start nClasses)).map fun i =>
          (i, classMetadata paSmall paLarge (roundUp start + multiple * i))⟩ :=
  congrArg₂ MetaBuf.mk (by simp [Multiples.initConserve]) (by simp [Multiples.initConserve, iterate_add])

/-- Every record the closure writes, in order: the multiples', the powers of two's, and the word
class's in the default build. -/
theorem newInternal_writes :
    (newInternal tg paSmall paLarge start nClasses).1.writes =
      (List.range (TieredSizeClasses.nSmallClasses start nClasses)).map
          (fun i => (i, classMetadata paSmall paLarge (roundUp start + multiple * i))) ++
        (List.range (nClasses - TieredSizeClasses.nSmallClasses start nClasses)).map
          (fun j => (TieredSizeClasses.nSmallClasses start nClasses + j, classMetadata paSmall paLarge
            ((fun c => tg.wrap (c * 2))^[j] (newInternal tg paSmall paLarge start nClasses).2.allocs.mediumObjs.startingSize))) ++
        if tg.wordObjs then [(nClasses, classMetadata paSmall paLarge 8)] else [] := by
  have hle := TieredSizeClasses.nSmallClasses_le start nClasses
  simp only [newInternal, TieredSizeClasses.initConserve, PowersOfTwo.initConserve, newInternal_allocs,
    TieredSizeClasses.initConserve_mediumObjs, PowersOfTwo.initConserve_startingSize]
  split
  · simp only [newInternalCtor, fill_newInternalCtor_writes, fill_newInternalCtor_metaPointer, newInternal_smallBuf,
      List.append_assoc, if_true]
    rw [show TieredSizeClasses.nSmallClasses start nClasses +
      (nClasses - TieredSizeClasses.nSmallClasses start nClasses) = nClasses by omega]; rfl
  · simp_all [newInternal_smallBuf]

theorem newInternal_smallClasses :
    (newInternal tg paSmall paLarge start nClasses).2.allocs.smallObjs.classes =
      (List.range (TieredSizeClasses.nSmallClasses start nClasses)).map
        fun i => ⟨i, (classPages paSmall paLarge (roundUp start + multiple * i)).2.1⟩ := by
  simp [Multiples.initConserve, iterate_add]

theorem newInternal_mediumClasses :
    (newInternal tg paSmall paLarge start nClasses).2.allocs.mediumObjs.classes =
      (List.range (nClasses - TieredSizeClasses.nSmallClasses start nClasses)).map
        fun j => ⟨TieredSizeClasses.nSmallClasses start nClasses + j, (classPages paSmall paLarge
          ((fun c => tg.wrap (c * 2))^[j] (newInternal tg paSmall paLarge start nClasses).2.allocs.mediumObjs.startingSize)).2.1⟩ := by
  simp [PowersOfTwo.initConserve, newInternal_smallBuf]

theorem newInternal_wordClass :
    (newInternal tg paSmall paLarge start nClasses).2.allocs.wordObjs =
      if tg.wordObjs then some ⟨nClasses, (classPages paSmall paLarge 8).2.1⟩ else none := by
  have hle := TieredSizeClasses.nSmallClasses_le start nClasses
  simp only [newInternal_allocs, TieredSizeClasses.initConserve_wordObjs, PowersOfTwo.initConserve, newInternalCtor,
    fill_newInternalCtor_metaPointer, newInternal_smallBuf]
  rw [show TieredSizeClasses.nSmallClasses start nClasses +
    (nClasses - TieredSizeClasses.nSmallClasses start nClasses) = nClasses by omega]

theorem range_small_medium : List.range nClasses = List.range (TieredSizeClasses.nSmallClasses start nClasses) ++
    (List.range (nClasses - TieredSizeClasses.nSmallClasses start nClasses)).map
      (TieredSizeClasses.nSmallClasses start nClasses + ·) := by
  have hle := TieredSizeClasses.nSmallClasses_le start nClasses
  conv_lhs => rw [show nClasses = TieredSizeClasses.nSmallClasses start nClasses +
    (nClasses - TieredSizeClasses.nSmallClasses start nClasses) by omega]
  exact List.range_add _ _

theorem newInternal_writes_indices :
    (newInternal tg paSmall paLarge start nClasses).1.writes.map Prod.fst =
      List.range (newInternal tg paSmall paLarge start nClasses).1.metaPointer := by
  rw [newInternal_writes, newInternal_metaPointer]
  split <;> simp [Function.comp_def, List.range_succ, range_small_medium start nClasses]

/-- The caches `foreach` visits point at records `n_classes` (the word class, in the default build),
then `0, 1, ..., n_classes - 1`. -/
theorem newInternal_foreach_meta :
    (newInternal tg paSmall paLarge start nClasses).2.allocs.foreach.map ObjectAlloc.meta =
      (if tg.wordObjs then [nClasses] else []) ++ List.range nClasses := by
  rw [TieredSizeClasses.foreach, newInternal_smallClasses, newInternal_mediumClasses, newInternal_wordClass,
    range_small_medium start nClasses]
  split <;> simp [Function.comp_def]

theorem newInternal_foreach_nodup :
    ((newInternal tg paSmall paLarge start nClasses).2.allocs.foreach.map ObjectAlloc.meta).Nodup := by
  rw [newInternal_foreach_meta]; split <;> simp [List.nodup_range]

theorem getElem?_map_range {α : Type} {n i : Nat} {g : Nat → α} {x : α}
    (h : ((List.range n).map g)[i]? = some x) : i < n ∧ g i = x := by
  simp only [List.getElem?_map, Option.map_eq_some', List.getElem?_eq_some_iff, List.length_range,
    List.getElem_range] at h
  obtain ⟨_, ⟨hi, rfl⟩, rfl⟩ := h
  exact ⟨hi, rfl⟩

theorem newInternal_get?_meta {k : Slot} {x : ObjectAlloc}
    (hk : (newInternal tg paSmall paLarge start nClasses).2.allocs.get? k = some x) :
    x.meta = metaIndex (TieredSizeClasses.nSmallClasses start nClasses) nClasses k ∧
      match k with
      | .word => tg.wordObjs = true
      | .small i => i < TieredSizeClasses.nSmallClasses start nClasses
      | .medium j => j < nClasses - TieredSizeClasses.nSmallClasses start nClasses := by
  cases k with
  | word =>
    rw [TieredSizeClasses.get?, newInternal_wordClass] at hk
    split at hk
    · cases hk; exact ⟨rfl, ‹_›⟩
    · cases hk
  | small i =>
    rw [TieredSizeClasses.get?, newInternal_smallClasses] at hk
    obtain ⟨hi, rfl⟩ := getElem?_map_range hk
    exact ⟨rfl, hi⟩
  | medium j =>
    rw [TieredSizeClasses.get?, newInternal_mediumClasses] at hk
    obtain ⟨hj, rfl⟩ := getElem?_map_range hk
    exact ⟨rfl, hj⟩

theorem newInternal_meta_inj {k k' : Slot} {x x' : ObjectAlloc}
    (hk : (newInternal tg paSmall paLarge start nClasses).2.allocs.get? k = some x)
    (hk' : (newInternal tg paSmall paLarge start nClasses).2.allocs.get? k' = some x')
    (h : x'.meta = x.meta) : k' = k := by
  have hle := TieredSizeClasses.nSmallClasses_le start nClasses
  obtain ⟨hm, hb⟩ := newInternal_get?_meta tg paSmall paLarge start nClasses hk
  obtain ⟨hm', hb'⟩ := newInternal_get?_meta tg paSmall paLarge start nClasses hk'
  rw [hm, hm'] at h
  cases k <;> cases k' <;> simp only [metaIndex, Slot.small.injEq, Slot.medium.injEq] at h hb hb' ⊢ <;> omega

/-- The record each class's cache points at, when the class's size is representable: the one
written for that size. -/
theorem newInternal_get?_record {k : Slot} {x : ObjectAlloc}
    (hk : (newInternal tg paSmall paLarge start nClasses).2.allocs.get? k = some x)
    (hfit : tg.Fits ((newInternal tg paSmall paLarge start nClasses).2.allocs.classSize k)) :
    x.pages = (classPages paSmall paLarge ((newInternal tg paSmall paLarge start nClasses).2.allocs.classSize k)).2.1 ∧
      (x.meta, classMetadata paSmall paLarge ((newInternal tg paSmall paLarge start nClasses).2.allocs.classSize k)) ∈
        (newInternal tg paSmall paLarge start nClasses).1.writes := by
  rw [newInternal_writes]
  cases k with
  | word =>
    rw [TieredSizeClasses.get?, newInternal_wordClass] at hk
    split at hk
    · cases hk; simp [TieredSizeClasses.classSize, *]
    · cases hk
  | small i =>
    rw [TieredSizeClasses.get?, newInternal_smallClasses] at hk
    obtain ⟨hi, rfl⟩ := getElem?_map_range hk
    refine ⟨by simp [TieredSizeClasses.classSize], ?_⟩
    simp only [TieredSizeClasses.classSize, newInternal_allocs, TieredSizeClasses.initConserve_smallObjs,
      Multiples.initConserve_startingSize, List.mem_append, List.mem_map, List.mem_range]
    exact .inl (.inl ⟨i, hi, rfl⟩)
  | medium j =>
    rw [TieredSizeClasses.get?, newInternal_mediumClasses] at hk
    obtain ⟨hj, rfl⟩ := getElem?_map_range hk
    have hS := hfit.mono (Nat.le_mul_of_pos_right _ (Nat.two_pow_pos j))
    have hsize : (fun c => tg.wrap (c * 2))^[j] (newInternal tg paSmall paLarge start nClasses).2.allocs.mediumObjs.startingSize =
        (newInternal tg paSmall paLarge start nClasses).2.allocs.classSize (.medium j) := by
      rw [iterate_double tg (Target.wrap_of_fits hS)]; exact Target.wrap_of_fits hfit
    refine ⟨by rw [hsize], ?_⟩
    simp only [List.mem_append, List.mem_map, List.mem_range]
    exact .inl (.inr ⟨j, hj, by rw [hsize]⟩)

end Records

theorem classMetadata_eq (paSmall paLarge : PageAlloc) (size : Nat) :
    classMetadata paSmall paLarge size = ⟨size, (classPages paSmall paLarge size).2.1.pageSize,
      (classPages paSmall paLarge size).2.1.pageSize, if size < elfmallocSmallCutoff then .SmallSlag else .BigSlag⟩ := by
  unfold classMetadata classPages; split <;> rfl

/-- `new_internal` writes one record per call, at `0, 1, ...` in order, and gives every class a
record of its own: the cache at each slot draws on the small pages below 64 KiB and the large ones
above, and points at a record written for its class's size, with its page source's page size as
page and usable size and the tag the size picks; no other slot's cache points at that record. -/
theorem newInternal_records (tg : Target) (paSmall paLarge : PageAlloc) (start nClasses : Nat)
    (hfit : ∀ k, ((newInternal tg paSmall paLarge start nClasses).2.allocs.get? k).isSome →
      tg.Fits ((newInternal tg paSmall paLarge start nClasses).2.allocs.classSize k)) :
    let r := newInternal tg paSmall paLarge start nClasses
    r.1.writes.map Prod.fst = List.range r.1.metaPointer ∧
      ∀ k x, r.2.allocs.get? k = some x →
        x.pages = (if r.2.allocs.classSize k < elfmallocSmallCutoff then paSmall else paLarge) ∧
        (x.meta, ⟨r.2.allocs.classSize k, x.pages.pageSize, x.pages.pageSize,
          if r.2.allocs.classSize k < elfmallocSmallCutoff then .SmallSlag else .BigSlag⟩) ∈ r.1.writes ∧
        ∀ k' x', r.2.allocs.get? k' = some x' → x'.meta = x.meta → k' = k := by
  intro r
  refine ⟨newInternal_writes_indices tg paSmall paLarge start nClasses, fun k x hk => ?_⟩
  obtain ⟨hp, hw⟩ := newInternal_get?_record tg paSmall paLarge start nClasses hk (hfit k (by rw [hk]; rfl))
  refine ⟨by rw [hp]; unfold classPages; split <;> rfl, by rwa [hp, ← classMetadata_eq],
    fun k' x' hk' h => newInternal_meta_inj tg paSmall paLarge start nClasses hk hk' h⟩

/-- `new()`'s arguments with sizes read as unbounded naturals: 26 records, at `0` to `25`. -/
theorem newInternal_records_new :
    let tg : Target := ⟨true, 0, 4096⟩
    (∀ k, ((newInternal tg newSmallPages newLargePages 8 25).2.allocs.get? k).isSome →
      tg.Fits ((newInternal tg newSmallPages newLargePages 8 25).2.allocs.classSize k)) ∧
      (newInternal tg newSmallPages newLargePages 8 25).1.writes.map Prod.fst = List.range 26 := by
  intro tg
  have hfit : ∀ k, ((newInternal tg newSmallPages newLargePages 8 25).2.allocs.get? k).isSome →
      tg.Fits ((newInternal tg newSmallPages newLargePages 8 25).2.allocs.classSize k) := fun _ _ => .inl rfl
  refine ⟨hfit, ?_⟩
  rw [(newInternal_records tg newSmallPages newLargePages 8 25 hfit).1, newInternal_metaPointer]
  rfl

/-! ## `free` finds the class of a slab object -/

theorem classPages_new (s : Nat) : (classPages newSmallPages newLargePages s).2.1 =
    if s < elfmallocSmallCutoff then newSmallPages else newLargePages := by
  unfold classPages; split <;> rfl

theorem pagesFor_pageSize (s : Nat) :
    (if s < elfmallocSmallCutoff then newSmallPages else newLargePages).pageSize =
      if s < elfmallocSmallCutoff then elfmallocSmallPageSize else elfmallocPageSize := by
  split <;> rfl

/-- `get_page_size` of an object of a class `s` over `new`'s page sources, when `s` is a power
of two if it is at least 64 KiB: the page size of `s`'s page source, which is also the one
`global::get_layout` picks. -/
theorem getPageSize_slab {m : Mem} {find : Nat → Nat → Nat} {s p : Nat}
    (hpow : elfmallocSmallCutoff ≤ s → isPowerOfTwo s = true)
    (hp : SlabObject m find (if s < elfmallocSmallCutoff then newSmallPages else newLargePages) s p) :
    (elfmallocSmallCutoff ≤ s → p % elfmallocSmallCutoff = 0) ∧
      getPageSize m p = some (if s < elfmallocSmallCutoff then newSmallPages else newLargePages).pageSize ∧
      globalBlockPageSize m p = (if s < elfmallocSmallCutoff then newSmallPages else newLargePages).pageSize := by
  have hfast : elfmallocSmallCutoff ≤ s → p % elfmallocSmallCutoff = 0 := fun hs => by
    obtain ⟨j, hj⟩ := isPowerOfTwo_iff.1 (hpow hs)
    have hj16 : 16 ≤ j := by
      by_contra h
      have := Nat.pow_lt_pow_right (show 1 < 2 by decide) (show j < 16 by omega)
      simp only [elfmallocSmallCutoff_eq] at hs; omega
    have hps := hp.aligned (hpow hs)
    rw [hj] at hps
    exact Nat.mod_eq_zero_of_dvd (Nat.dvd_trans (Nat.pow_dvd_pow 2 hj16) (Nat.dvd_of_mod_eq_zero hps))
  have htag := hp.tag
  refine ⟨hfast, ?_⟩
  by_cases hs : s < elfmallocSmallCutoff
  · simp only [hs, if_true] at htag ⊢
    refine ⟨?_, by rw [globalBlockPageSize, htag]; rfl⟩
    unfold getPageSize; split
    · rfl
    · rw [htag]; rfl
  · simp only [hs, if_false] at htag ⊢
    exact ⟨by rw [getPageSize, if_neg (by simpa using hfast (by omega)), htag]; rfl,
      by rw [globalBlockPageSize, htag]; rfl⟩

/-- What `ElfMalloc` does with an object `p` of the class at slot `k`: `get_page_size(p)` is the
page size of the class's page source (the fast path fires only below 64 KiB), which is also the
one `global::get_layout` uses, and `free(p)` goes to slot `k`. -/
def ClassDispatch (tg : Target) (e : ElfMalloc) (m : Mem) (find : Nat → Nat → Nat) (k : Slot) (p : Nat) :
    Prop :=
  let s := e.allocs.classSize k
  let pa := (classPages newSmallPages newLargePages s).2.1
  (elfmallocSmallCutoff ≤ s → p % elfmallocSmallCutoff = 0) ∧ getPageSize m p = some pa.pageSize ∧
    (pa.pageSize = elfmallocSmallPageSize ↔ s < elfmallocSmallCutoff) ∧
    (pa.pageSize = elfmallocPageSize ↔ elfmallocSmallCutoff ≤ s) ∧
    globalBlockPageSize m p = pa.pageSize ∧ e.free tg find m p = (.cache k, m)

/-- Every object of every class of a map with a `Layout` is dispatched to its own class. -/
theorem classDispatch_of_layout {tg : Target} {e : ElfMalloc} {ns nm : Nat} (L : e.allocs.Layout ns nm)
    (hw : tg.wordObjs = true) (hword : e.allocs.wordObjs.isSome) {m : Mem} {find : Nat → Nat → Nat}
    {k : Slot} {p : Nat} (hk : (e.allocs.get? k).isSome)
    (hp : SlabObject m find (classPages newSmallPages newLargePages (e.allocs.classSize k)).2.1
      (e.allocs.classSize k) p) :
    ClassDispatch tg e m find k p := by
  rw [classPages_new] at hp
  obtain ⟨hfast, hps, hglobal⟩ := getPageSize_slab (L.isPowerOfTwo_of_large hword hk) hp
  simp only [ClassDispatch, classPages_new]
  refine ⟨hfast, hps, ?_, ?_, hglobal, ?_⟩
  · rw [pagesFor_pageSize]; split_ifs with hs
    · exact iff_of_true rfl hs
    · exact iff_of_false (by decide) hs
  · rw [pagesFor_pageSize]; split_ifs with hs
    · exact iff_of_false (by decide) (by omega)
    · exact iff_of_true rfl (by omega)
  · rw [free_of_getPageSize hps, hp.objectSize, L.getRaw_classSize hw hword hk]

/-- What every reader sees of the block `large_alloc::alloc(size)` returns, carved at `mem`. -/
def LargeReadBack (tg : Target) (e : ElfMalloc) (find : Nat → Nat → Nat) (m : Mem) (mem size : Nat) : Prop :=
  let r := LargeAlloc.alloc tg m mem size
  let h := LargeAlloc.getCommitmentMut r.1
  r.1 = mem + elfmallocPageSize ∧ mem ≤ h ∧ h + sizeOfAllocInfo ≤ r.1 ∧
    r.1 + size ≤ mem + LargeAlloc.nPages (size + elfmallocPageSize) * elfmallocSmallCutoff ∧
    getType r.2 r.1 = .Large ∧ LargeAlloc.getCommitment r.2 r.1 = (size + elfmallocPageSize, mem) ∧
    LargeAlloc.getSize tg r.2 r.1 = size ∧
    (∀ ps, elfmallocGetLayout tg find ps r.2 r.1 = (size, tg.osPageSize)) ∧
    globalGetLayout tg find r.2 r.1 = (size, tg.osPageSize) ∧
    r.1 % elfmallocSmallCutoff = 0 ∧ getPageSize r.2 r.1 = none ∧
    e.free tg find r.2 r.1 = (.large, r.2.unmap mem (size + elfmallocPageSize) tg.osPageSize)

/-- The large path for every 64 KiB-aligned base and every size whose region fits in `usize`. -/
theorem largeAlloc_readBack (tg : Target) (e : ElfMalloc) (find : Nat → Nat → Nat) (m : Mem) {mem size : Nat}
    (hmem : mem % elfmallocSmallCutoff = 0) (hfit : tg.Fits (size + elfmallocPageSize)) :
    LargeReadBack tg e find m mem size := by
  obtain ⟨hres, hlo, hhi, huser, -, htype, hget, hsize, haligned⟩ := LargeAlloc.alloc_header tg m hmem hfit
  have hlayout : ∀ ps, elfmallocGetLayout tg find ps (LargeAlloc.alloc tg m mem size).2
      (LargeAlloc.alloc tg m mem size).1 = (size, tg.osPageSize) := fun ps => by
    rw [elfmallocGetLayout, htype, hsize]
  have hps : getPageSize (LargeAlloc.alloc tg m mem size).2 (LargeAlloc.alloc tg m mem size).1 = none := by
    rw [getPageSize, if_neg (by simpa using haligned), htype]
  exact ⟨hres, hlo, hhi, huser, htype, hget, hsize, hlayout, hlayout _, haligned, hps,
    by rw [free, hps]; exact congrArg _ (LargeAlloc.free_alloc tg m hmem hfit)⟩

/-- A one-byte request at a 2 MiB base on 64-bit Linux. -/
theorem largeAlloc_readBack_one :
    (2 ^ 21 % elfmallocSmallCutoff = 0 ∧ Target.linux64.Fits (1 + elfmallocPageSize)) ∧
      LargeReadBack Target.linux64 (new Target.linux64) (fun _ _ => 0) ⟨fun _ => ⟨.Large, 0, 0⟩, fun _ => false⟩
        (2 ^ 21) 1 :=
  ⟨⟨by decide, .inr (by decide)⟩, largeAlloc_readBack _ _ _ _ (by decide) (.inr (by decide))⟩

/-! ## `realloc` -/

theorem realloc_null (tg : Target) (find : Nat → Nat → Nat) (m : Mem) (newSize newAlignment : Nat) :
    realloc tg find m 0 newSize newAlignment =
      .alloc (if newAlignment ≤ wordSize then newSize else tg.wrap newSize.nextPowerOfTwo) := by
  simp [realloc]

theorem allocLayout_of_le {tg : Target} {e : ElfMalloc} {ns nm : Nat} (L : e.allocs.Layout ns nm)
    (hw : tg.wordObjs = true) (hword : e.allocs.wordObjs.isSome) (hmax : e.maxSize = e.allocs.maxKey)
    {s : Nat} (hs : s ≤ e.maxSize) :
    s ≤ (e.allocLayout tg s).1 ∧ wordSize ≤ (e.allocLayout tg s).2 ∧
      (isPowerOfTwo s = true → wordSize < s → e.allocLayout tg s = (s, s)) := by
  have hc := L.classSize_getRaw hw s
  have := L.ns_pos
  have := roundUp_spec s
  have := le_nextPowerOfTwo s
  simp only [allocLayout, alloc, if_pos hs]
  refine ⟨(L.getRaw_spec hw hword (hmax ▸ hs)).2.2, ?_, fun hp h8 => ?_⟩
  · have : 8 ≤ e.allocs.classSize (e.allocs.getRaw tg s) := by rw [hc]; split_ifs <;> omega
    split <;> simp only [wordSize_eq] <;> omega
  · obtain ⟨j, rfl⟩ := isPowerOfTwo_iff.1 hp
    have h16 : (2 ^ j) % 16 = 0 := by
      have : 4 ≤ j := by
        by_contra h
        have := Nat.pow_le_pow_right (show 0 < 2 by decide) (show j ≤ 3 by omega)
        simp only [wordSize_eq] at h8; omega
      exact Nat.mod_eq_zero_of_dvd (Nat.pow_dvd_pow 2 this)
    rw [hc, if_neg (by simp only [wordSize_eq] at h8; omega), roundUp_of_dvd h16, nextPowerOfTwo_two_pow]
    simp [isPowerOfTwo_two_pow]

theorem le_allocLayout {tg : Target} {e : ElfMalloc} {ns nm : Nat} (L : e.allocs.Layout ns nm)
    (hw : tg.wordObjs = true) (hword : e.allocs.wordObjs.isSome) (hmax : e.maxSize = e.allocs.maxKey)
    (s : Nat) : s ≤ (e.allocLayout tg s).1 := by
  by_cases hs : s ≤ e.maxSize
  · exact (allocLayout_of_le L hw hword hmax hs).1
  · simp [allocLayout, alloc, hs]

theorem realloc_eq_moved {tg : Target} {find : Nat → Nat → Nat} {m : Mem} {item newSize newAlignment size copied : Nat}
    (h : realloc tg find m item newSize newAlignment = .moved size copied) :
    copied = min (globalGetLayout tg find m item).1 size := by
  unfold realloc at h
  split_ifs at h <;> cases h <;> rfl

theorem realloc_ne_freed {tg : Target} {find : Nat → Nat → Nat} {m : Mem} {item newSize newAlignment : Nat}
    (h : newSize ≠ 0) : realloc tg find m item newSize newAlignment ≠ .freed := by
  unfold realloc; split_ifs <;> simp_all

/-- The layout of the block `realloc` hands back for a nonzero size: that of `alloc` at the
request, or at its next power of two for an alignment above the word, or the old block's when it
already covers the request. -/
theorem reallocLayout_cases (tg : Target) (e : ElfMalloc) (find : Nat → Nat → Nat) (m : Mem)
    (item newSize newAlignment : Nat) (h0 : newSize ≠ 0) :
    e.reallocLayout tg find m item (realloc tg find m item newSize newAlignment) =
        some (e.allocLayout tg (if newAlignment ≤ wordSize then newSize else tg.wrap newSize.nextPowerOfTwo)) ∨
      newAlignment ≤ (globalGetLayout tg find m item).2 ∧ newSize ≤ (globalGetLayout tg find m item).1 ∧
        e.reallocLayout tg find m item (realloc tg find m item newSize newAlignment) =
          some (globalGetLayout tg find m item) := by
  by_cases hi : item = 0
  · simp [realloc, reallocLayout, hi]
  by_cases hs : newAlignment ≤ (globalGetLayout tg find m item).2 ∧ newSize ≤ (globalGetLayout tg find m item).1
  · exact .inr ⟨hs.1, hs.2, by simp [realloc, reallocLayout, hi, h0, hs]⟩
  · have hsize : (if wordSize < newAlignment then tg.wrap newSize.nextPowerOfTwo else newSize) =
        if newAlignment ≤ wordSize then newSize else tg.wrap newSize.nextPowerOfTwo := by
      split_ifs <;> first | rfl | omega
    exact .inl (by simp only [realloc, reallocLayout, if_neg hi, if_neg h0, if_neg hs, hsize])

/-- `alloc` at the size `realloc` asks for, from a map with a `Layout`, covers a request up to
`max_size` and an alignment at most the word or at most the request. -/
theorem allocLayout_covers {tg : Target} {e : ElfMalloc} {ns nm : Nat} (L : e.allocs.Layout ns nm)
    (hw : tg.wordObjs = true) (hword : e.allocs.wordObjs.isSome) (hmax : e.maxSize = e.allocs.maxKey)
    (hfit : tg.Fits e.maxSize) {newSize newAlignment : Nat} (hs : newSize ≤ e.maxSize)
    (ha : newAlignment ≤ wordSize ∨ newAlignment ≤ newSize) :
    newSize ≤ (e.allocLayout tg (if newAlignment ≤ wordSize then newSize else tg.wrap newSize.nextPowerOfTwo)).1 ∧
      newAlignment ≤ (e.allocLayout tg (if newAlignment ≤ wordSize then newSize else tg.wrap newSize.nextPowerOfTwo)).2 := by
  split_ifs with h8
  · have := allocLayout_of_le L hw hword hmax hs; omega
  · have hpow : e.maxSize = 2 ^ (Nat.clog 2 (16 * ns + 1) + (nm - 1)) := by
      rw [hmax, L.max_key, nextPowerOfTwo_eq_clog, Nat.pow_add]
    have hnpt : newSize.nextPowerOfTwo ≤ e.maxSize := hpow ▸ nextPowerOfTwo_le (hpow ▸ hs)
    have := le_nextPowerOfTwo newSize
    rw [Target.wrap_of_fits (hfit.mono hnpt), (allocLayout_of_le L hw hword hmax hnpt).2.2
      (by rw [nextPowerOfTwo_eq_clog]; exact isPowerOfTwo_two_pow _) (by omega)]
    omega

/-- `realloc` hands back a block that covers the request and its alignment whenever the alignment
is at most the word size or at most the request. -/
theorem realloc_meets_request {tg : Target} {e : ElfMalloc} {ns nm : Nat} (L : e.allocs.Layout ns nm)
    (hw : tg.wordObjs = true) (hword : e.allocs.wordObjs.isSome) (hmax : e.maxSize = e.allocs.maxKey)
    (hfit : tg.Fits e.maxSize) (find : Nat → Nat → Nat) (m : Mem) {item newSize newAlignment : Nat}
    (h1 : 1 ≤ newSize) (hs : newSize ≤ e.maxSize) (ha : newAlignment ≤ wordSize ∨ newAlignment ≤ newSize) :
    ∃ sz al, e.reallocLayout tg find m item (realloc tg find m item newSize newAlignment) = some (sz, al) ∧
      newSize ≤ sz ∧ newAlignment ≤ al := by
  rcases reallocLayout_cases tg e find m item newSize newAlignment (by omega) with h | ⟨ha', hs', h⟩
  · exact ⟨_, _, h, allocLayout_covers L hw hword hmax hfit hs ha⟩
  · exact ⟨_, _, h, hs', ha'⟩

/-- `realloc(null, 100, 8)` on `new()`, 64-bit: the block covers 100 bytes and is aligned to 8. -/
theorem realloc_meets_request_new :
    let m : Mem := ⟨fun _ => ⟨.Large, 0, 0⟩, fun _ => false⟩
    ((new Target.linux64).allocs.Layout 12 13 ∧ Target.linux64.wordObjs = true ∧
      (new Target.linux64).allocs.wordObjs.isSome ∧ (new Target.linux64).maxSize = (new Target.linux64).allocs.maxKey ∧
      Target.linux64.Fits (new Target.linux64).maxSize ∧ 1 ≤ 100 ∧ 100 ≤ (new Target.linux64).maxSize ∧
      (8 ≤ wordSize ∨ 8 ≤ 100)) ∧
      ∃ sz al, (new Target.linux64).reallocLayout Target.linux64 (fun _ _ => 0) m 0
        (realloc Target.linux64 (fun _ _ => 0) m 0 100 8) = some (sz, al) ∧ 100 ≤ sz ∧ 8 ≤ al := by
  intro m
  have hmax : (new Target.linux64).maxSize = 2 ^ 20 := new_maxSize (.inr (by decide))
  have L : (new Target.linux64).allocs.Layout 12 13 := new_layout (.inr (by decide))
  have hword := newInternal_wordObjs Target.linux64 rfl newSmallPages newLargePages 8 25
  have hfit : Target.linux64.Fits (new Target.linux64).maxSize := .inr (by rw [hmax]; decide)
  have hs : 100 ≤ (new Target.linux64).maxSize := by rw [hmax]; decide
  exact ⟨⟨L, rfl, hword, rfl, hfit, by decide, hs, .inl (by decide)⟩,
    realloc_meets_request L rfl hword rfl hfit _ m (by decide) hs (.inl (by decide))⟩

/-- `realloc(null, 8, 16)` on `new()`: 8 is already a power of two, so `alloc(8)` hands back the
word class, aligned to 8 only. -/
theorem realloc_null_underaligned (find : Nat → Nat → Nat) (m : Mem) :
    realloc Target.linux64 find m 0 8 16 = .alloc 8 ∧
      (new Target.linux64).allocLayout Target.linux64 8 = (8, 8) := by
  have h8 : Nat.nextPowerOfTwo 8 = 2 ^ 3 := nextPowerOfTwo_eq_of (by decide) (by decide)
  refine ⟨by rw [realloc_null, h8]; decide, ?_⟩
  rw [allocLayout, alloc, if_pos (by rw [new_maxSize (.inr (by decide))]; decide)]
  simp [TieredSizeClasses.getRaw, Target.linux64, TieredSizeClasses.classSize, isPowerOfTwo_iff.2 ⟨3, rfl⟩]

/-- `realloc(null, 2 ^ 63 + 1, 16)` on `new()`, 64-bit: `next_power_of_two` wraps to `0`, and
`alloc(0)` hands back the 8-byte word class. -/
theorem realloc_huge_wraps (find : Nat → Nat → Nat) (m : Mem) :
    realloc Target.linux64 find m 0 (2 ^ 63 + 1) 16 = .alloc 0 ∧
      (new Target.linux64).allocLayout Target.linux64 0 = (8, 8) := by
  have h : Nat.nextPowerOfTwo (2 ^ 63 + 1) = 2 ^ 64 := nextPowerOfTwo_eq_of (by decide) (by decide)
  refine ⟨by rw [realloc_null, h]; decide, ?_⟩
  rw [allocLayout, alloc, if_pos (Nat.zero_le _)]
  simp [TieredSizeClasses.getRaw, Target.linux64, TieredSizeClasses.classSize, isPowerOfTwo_iff.2 ⟨3, rfl⟩]

end ElfMalloc

/-! ## `DynamicAllocator` -/

/-- `DynamicAllocator`: an `ElfMalloc` over `new`'s page sources and the tiered map. -/
structure DynamicAllocator where
  elf : ElfMalloc

namespace DynamicAllocator

/-- `DynamicAllocator::new`. -/
def new (tg : Target) : DynamicAllocator := ⟨ElfMalloc.new tg⟩

/-- `DynamicAllocator::realloc`: `ElfMalloc::realloc` at the word's alignment. -/
def realloc (tg : Target) (find : Nat → Nat → Nat) (m : Mem) (item newSize : Nat) : ElfMalloc.Realloc :=
  ElfMalloc.realloc tg find m item newSize wordSize

/-- `Drop for DynamicAllocator`: `drop_in_place` on each class `foreach` visits, in that order; the
class arrays are released and `word_objs` cleared after. -/
def drop (d : DynamicAllocator) : List ObjectAlloc := d.elf.allocs.foreach

/-- Dropping an allocator whose map `new_internal` built, in either build, runs `drop_in_place` on
every class at the map's slots and on nothing else, and on no cache twice: the caches it visits
point at distinct metadata records, those of the word class and of the `n_classes` others. -/
theorem drop_each_class_once (tg : Target) (paSmall paLarge : PageAlloc) (start nClasses : Nat) :
    let d : DynamicAllocator := ⟨(ElfMalloc.newInternal tg paSmall paLarge start nClasses).2⟩
    (d.drop.map ObjectAlloc.meta).Nodup ∧ d.drop.length = nClasses + (if tg.wordObjs then 1 else 0) ∧
      ∀ x, x ∈ d.drop ↔ ∃ k, d.elf.allocs.get? k = some x := by
  intro d
  have hm : d.drop.map ObjectAlloc.meta = (if tg.wordObjs then [nClasses] else []) ++ List.range nClasses :=
    ElfMalloc.newInternal_foreach_meta tg paSmall paLarge start nClasses
  refine ⟨ElfMalloc.newInternal_foreach_nodup tg paSmall paLarge start nClasses, ?_,
    fun x => TieredSizeClasses.mem_foreach⟩
  rw [← List.length_map _ ObjectAlloc.meta, hm]; split <;> simp [Nat.add_comm]

end DynamicAllocator

end Elfmalloc
