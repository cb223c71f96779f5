import Elfmalloc.ElfMalloc
/-!
# The heap over whole runs

`ElfMalloc` as a state machine. The state is memory as `general.rs` reads and writes it, the
bases of the 2 MiB regions the page sources have stamped, and the blocks handed out and not yet
freed. A step is `alloc` served by a class, `large_alloc::alloc`, `free` of a live block, or a
page source mapping and stamping a fresh region (the slab layer, modelled from the spec). The OS
hands out only unmapped memory, and the slab layer only objects of the class asked for.

The runs admit only `large_alloc::alloc` requests whose `region_size = n + 2 MiB` fits in
`usize`. A request within 2 MiB of `usize::MAX` wraps it (`LargeAlloc.alloc_wraps`): the code
carves too few units for the block it hands out, whose header can then land outside them, on a
stamped region's tag. Every result here is about runs without such a request.

`Heap.Inv`: every live block reads back as it was handed out (a slab object's tag, a large
block's header and mapping), and large mappings, stamped regions and pointers do not overlap.
Every step keeps it, so in every reachable heap `free` sends each live block to its own class,
or to `large_alloc` with the header `alloc` wrote (`free_live`); `get_layout` reports its layout
(`layout_live`); `get_page_size`'s fast path answers as the tag would (`getPageSize_live`); a
large block's bytes stay mapped until it is freed (`large_live_mapped`); and no two live blocks'
mappings meet, nor does one meet a stamped region (`owned_disjoint`). The large path's `free`
stays inside the block's mapping because the OS page divides 64 KiB. A `realloc` is a run of
`alloc` and `free` steps (`ReallocStep.steps`); a move frees the old block and copies no more than
either block holds (`realloc_copy_within`).
-/

namespace Elfmalloc

open ElfMalloc (classPages newSmallPages newLargePages getPageSize)

/-- A block the allocator handed out and has not freed: an object of the class at slot `k`, or a
`large_alloc` block of `size` bytes. -/
inductive Block where
  | slab (k : Slot) (p : Nat)
  | large (p size : Nat)
  deriving DecidableEq, Repr

namespace Block

/-- The pointer the block was handed out as. -/
def ptr : Block → Nat
  | slab _ p => p
  | large p _ => p

/-- Where `free` must send the block. -/
def dest : Block → Dest
  | slab k _ => .cache k
  | large _ _ => .large

/-- The bytes a large block's mapping covers: `n_pages` units of 64 KiB from `res - 2 MiB`. A
slab object owns no mapping of its own. -/
def Owns : Block → Nat → Prop
  | slab _ _, _ => False
  | large p size, a => p - elfmallocPageSize ≤ a ∧
      a < p - elfmallocPageSize + LargeAlloc.nPages (size + elfmallocPageSize) * elfmallocSmallCutoff

/-- Two blocks have different pointers and no mapped byte in common. -/
def Separate (b c : Block) : Prop := b.ptr ≠ c.ptr ∧ ∀ a, b.Owns a → ¬ c.Owns a

theorem Separate.symm {b c : Block} (h : Separate b c) : Separate c b :=
  ⟨h.1.symm, fun a hc hb => h.2 a hb hc⟩

/-- Memory as `free` leaves it: a slab free touches no mapping; a large free unmaps the region
the header records, rounded to OS pages. -/
def freed (tg : Target) (m : Mem) : Block → Mem
  | slab _ _ => m
  | large p size => m.unmap (p - elfmallocPageSize) (size + elfmallocPageSize) tg.osPageSize

/-- The layout `get_layout` must report: the class's size, aligned to itself when a power of two;
a large block's size, aligned to the OS page. -/
def layout (tg : Target) (e : ElfMalloc) : Block → Nat × Nat
  | slab k _ => (e.allocs.classSize k,
      if isPowerOfTwo (e.allocs.classSize k) then e.allocs.classSize k else wordSize)
  | large _ size => (size, tg.osPageSize)

end Block

/-- What `large_alloc::alloc` left for the block `p` of `size` bytes: `p` is 64 KiB-aligned and
2 MiB into its mapping, the region fits in `usize`, the header slot holds its header, and the
whole mapping is mapped. -/
structure LargeBlock (tg : Target) (m : Mem) (p size : Nat) : Prop where
  base_le : elfmallocPageSize ≤ p
  aligned : p % elfmallocSmallCutoff = 0
  fits : tg.Fits (size + elfmallocPageSize)
  header : m.info (LargeAlloc.getCommitmentMut p) = ⟨.Large, p - elfmallocPageSize, size + elfmallocPageSize⟩
  mapped : ∀ a, (Block.large p size).Owns a → m.mapped a = true

/-- Memory that only grew: every mapped byte stays mapped and reads the same. -/
def Mem.Extends (m m' : Mem) : Prop := ∀ a, m.mapped a = true → m'.mapped a = true ∧ m'.info a = m.info a

theorem Mem.extends_carve_write {m : Mem} {base len a : Nat} {v : AllocInfo} (ha : m.mapped a = false) :
    m.Extends ((m.carve base len).write a v) := fun b hb => by
  have : b ≠ a := by rintro rfl; simp [hb] at ha
  simp [hb, this]

theorem SlabObject.of_slot {m m' : Mem} {find : Nat → Nat → Nat} {pa : PageAlloc} {s p : Nat}
    (hp : SlabObject m find pa s p) (h : m'.info (roundToPage (p - 1)) = m.info (roundToPage (p - 1))) :
    SlabObject m' find pa s p :=
  ⟨by rw [getType, h]; exact hp.tag, hp.aligned, hp.objectSize⟩

namespace LargeBlock

variable {tg : Target} {m m' : Mem} {p size : Nat}

theorem owns_header (hb : LargeBlock tg m p size) : (Block.large p size).Owns (LargeAlloc.getCommitmentMut p) := by
  have := hb.base_le; have := hb.aligned
  have hn := (LargeAlloc.nPages_spec (size + elfmallocPageSize)).1
  have hmem : (p - elfmallocPageSize) % elfmallocSmallCutoff = 0 := by
    simp only [elfmallocPageSize_eq, elfmallocSmallCutoff_eq] at *; omega
  have hs := LargeAlloc.getCommitmentMut_bounds hmem
  rw [Nat.sub_add_cancel hb.base_le] at hs
  simp only [Block.Owns, elfmallocPageSize_eq, elfmallocSmallCutoff_eq] at *
  omega

theorem owns_ptr (hb : LargeBlock tg m p size) (hs : 0 < size) : (Block.large p size).Owns p := by
  have := hb.base_le
  have := (LargeAlloc.nPages_spec (size + elfmallocPageSize)).1
  simp only [Block.Owns]; omega

theorem extend (hb : LargeBlock tg m p size) (hm : m.Extends m') : LargeBlock tg m' p size :=
  { hb with
    header := by rw [(hm _ (hb.mapped _ hb.owns_header)).2, hb.header]
    mapped := fun a ha => (hm a (hb.mapped a ha)).1 }

/-- `large_alloc::free` of the block unmaps the region its header records. -/
theorem free_eq (hb : LargeBlock tg m p size) :
    LargeAlloc.free tg m p = m.unmap (p - elfmallocPageSize) (size + elfmallocPageSize) tg.osPageSize := by
  have hc : LargeAlloc.getCommitment m p = (size + elfmallocPageSize, p - elfmallocPageSize) := by
    simp [LargeAlloc.getCommitment, hb.header]
  rw [LargeAlloc.free, hc, if_neg (by simp)]

theorem getPageSize_eq (hb : LargeBlock tg m p size) : getPageSize m p = none := by
  rw [getPageSize, if_neg (by simpa using hb.aligned), LargeAlloc.getType_eq, hb.header]

end LargeBlock

/-- `munmap` of a region rounded to OS pages stays within its 64 KiB units when the OS page
divides 64 KiB. -/
theorem roundToOsPage_le {os : Nat} (hos : os ∣ elfmallocSmallCutoff) (len : Nat) :
    (len + os - 1) / os * os ≤ LargeAlloc.nPages len * elfmallocSmallCutoff := by
  rcases Nat.eq_zero_or_pos os with rfl | hpos
  · simp
  obtain ⟨q, hq⟩ := Nat.dvd_trans hos (Nat.dvd_mul_left _ (LargeAlloc.nPages len))
  have hlen := (LargeAlloc.nPages_spec len).1
  rw [hq, Nat.mul_comm os q] at hlen ⊢
  refine Nat.mul_le_mul_right _ (Nat.le_of_lt_succ ((Nat.div_lt_iff_lt_mul hpos).2 ?_))
  rw [Nat.succ_mul]; omega

/-- The heap: memory, the bases of the regions the page sources have stamped, and the live
blocks. -/
structure Heap where
  mem : Mem
  regions : List Nat
  live : List Block

/-- What the heap needs of the instance: the default build's map with a `Layout`, `max_size` its
`max_key`, and an OS page that divides 64 KiB. `new()` on 64-bit Linux is one (`new_wf`). -/
structure ElfMalloc.Wf (tg : Target) (e : ElfMalloc) : Prop where
  layout : ∃ ns nm, e.allocs.Layout ns nm
  word : tg.wordObjs = true
  wordObjs : e.allocs.wordObjs.isSome
  maxSize : e.maxSize = e.allocs.maxKey
  osPage : tg.osPageSize ∣ elfmallocSmallCutoff

theorem ElfMalloc.new_wf {tg : Target} (hw : tg.wordObjs = true) (hfit : tg.Fits (2 ^ 21))
    (hos : tg.osPageSize ∣ elfmallocSmallCutoff) : (ElfMalloc.new tg).Wf tg :=
  ⟨⟨12, 13, ElfMalloc.new_layout hfit⟩, hw, ElfMalloc.newInternal_wordObjs tg hw _ _ _ _, rfl, hos⟩

namespace Heap

section
variable (tg : Target) (e : ElfMalloc) (find : Nat → Nat → Nat)

/-- Every live block reads back as it was handed out, and nothing overlaps: a slab object's class
exists, its tag slot is a stamped region and the slab layer's promises still hold; a large block
is as `alloc` left it; stamped regions are mapped and outside every large mapping; live blocks
are pairwise separate. -/
structure Inv (h : Heap) : Prop where
  slab : ∀ k p, Block.slab k p ∈ h.live → (e.allocs.get? k).isSome ∧ roundToPage (p - 1) ∈ h.regions ∧
    SlabObject h.mem find (classPages newSmallPages newLargePages (e.allocs.classSize k)).2.1
      (e.allocs.classSize k) p
  large : ∀ p size, Block.large p size ∈ h.live → LargeBlock tg h.mem p size
  regionMapped : ∀ r ∈ h.regions, h.mem.mapped r = true
  regionFree : ∀ r ∈ h.regions, ∀ b ∈ h.live, ¬ b.Owns r
  separate : h.live.Pairwise Block.Separate

/-- One step of the heap. -/
inductive Step : Heap → Heap → Prop
  /-- Modelled from the spec: a page source maps a fresh 2 MiB region at `base` and writes its
  slag header there, whose tag `get_type` reads. -/
  | pages (h : Heap) (base : Nat) (v : AllocInfo)
      (hfresh : ∀ a, base ≤ a → a < base + elfmallocPageSize → h.mem.mapped a = false) :
      Step h ⟨(h.mem.carve base elfmallocPageSize).write base v, base :: h.regions, h.live⟩
  /-- `alloc(n)` sent to the class at `k`, whose cache hands out an object `p` of that class from
  a stamped region; `p` is not live. -/
  | allocSlab (h : Heap) (n p : Nat) (k : Slot) (hd : e.alloc tg n = .cache k)
      (hreg : roundToPage (p - 1) ∈ h.regions) (hnew : ∀ b ∈ h.live, b.ptr ≠ p)
      (hp : SlabObject h.mem find (classPages newSmallPages newLargePages (e.allocs.classSize k)).2.1
        (e.allocs.classSize k) p) :
      Step h ⟨h.mem, h.regions, .slab k p :: h.live⟩
  /-- `large_alloc::alloc(n)`, from `alloc` above `max_size` or from `global::alloc` on a thread
  without a handle: the OS maps `n_pages` fresh units at a 64 KiB-aligned `mem`. Only a request
  whose `region_size` fits in `usize` (`hfit`); the code also accepts one within 2 MiB of
  `usize::MAX`, and wraps it. -/
  | allocLarge (h : Heap) (n mem : Nat) (hmem : mem % elfmallocSmallCutoff = 0)
      (hfit : tg.Fits (n + elfmallocPageSize))
      (hfresh : ∀ a, mem ≤ a → a < mem + LargeAlloc.nPages (n + elfmallocPageSize) * elfmallocSmallCutoff →
        h.mem.mapped a = false) :
      Step h ⟨(LargeAlloc.alloc tg h.mem mem n).2, h.regions,
        .large (LargeAlloc.alloc tg h.mem mem n).1 n :: h.live⟩
  /-- `ElfMalloc::free` of a live block. -/
  | free (h : Heap) (b : Block) (hb : b ∈ h.live) :
      Step h ⟨(e.free tg find h.mem b.ptr).2, h.regions, h.live.erase b⟩

/-- The heaps a run reaches from one with nothing stamped and nothing live, with no large request
within 2 MiB of `usize::MAX`. -/
inductive Reachable : Heap → Prop
  | init (m : Mem) : Reachable ⟨m, [], []⟩
  | step {h h' : Heap} : Reachable h → Step tg e find h h' → Reachable h'

/-- `ElfMalloc::alloc(n)` handing out block `c`: an object of the class `alloc` picks, or a fresh
`large_alloc` mapping when `alloc` sends `n` there. -/
inductive AllocStep : Heap → Nat → Block → Heap → Prop
  /-- An object of the class `alloc` picks, from a stamped region. -/
  | slab (h : Heap) (n p : Nat) (k : Slot) (hd : e.alloc tg n = .cache k)
      (hreg : roundToPage (p - 1) ∈ h.regions) (hnew : ∀ b ∈ h.live, b.ptr ≠ p)
      (hp : SlabObject h.mem find (classPages newSmallPages newLargePages (e.allocs.classSize k)).2.1
        (e.allocs.classSize k) p) :
      AllocStep h n (.slab k p) ⟨h.mem, h.regions, .slab k p :: h.live⟩
  /-- A fresh `large_alloc` mapping, for a request whose `region_size` fits in `usize`. -/
  | large (h : Heap) (n mem : Nat) (hd : e.alloc tg n = .large) (hmem : mem % elfmallocSmallCutoff = 0)
      (hfit : tg.Fits (n + elfmallocPageSize))
      (hfresh : ∀ a, mem ≤ a → a < mem + LargeAlloc.nPages (n + elfmallocPageSize) * elfmallocSmallCutoff →
        h.mem.mapped a = false) :
      AllocStep h n (.large (LargeAlloc.alloc tg h.mem mem n).1 n) ⟨(LargeAlloc.alloc tg h.mem mem n).2,
        h.regions, .large (LargeAlloc.alloc tg h.mem mem n).1 n :: h.live⟩

/-- `ElfMalloc::realloc(item, n, a)` handing back `q`, as its outcome says: for a null `item` the
block `alloc` hands out; otherwise `item` is the pointer of a live block `b`, which is freed (and
null handed back), handed back itself, or freed after `alloc` hands out the new block. -/
inductive ReallocStep (h : Heap) (item n a : Nat) : Nat → Heap → Prop
  | alloc (size : Nat) (hr : ElfMalloc.realloc tg find h.mem item n a = .alloc size) (c : Block) (h' : Heap)
      (ha : AllocStep tg e find h size c h') : ReallocStep h item n a c.ptr h'
  | freed (b : Block) (hb : b ∈ h.live) (hi : b.ptr = item) (hr : ElfMalloc.realloc tg find h.mem item n a = .freed) :
      ReallocStep h item n a 0 ⟨(e.free tg find h.mem item).2, h.regions, h.live.erase b⟩
  | same (b : Block) (hb : b ∈ h.live) (hi : b.ptr = item) (hr : ElfMalloc.realloc tg find h.mem item n a = .same) :
      ReallocStep h item n a item h
  | moved (size copied : Nat) (hr : ElfMalloc.realloc tg find h.mem item n a = .moved size copied) (b : Block)
      (hb : b ∈ h.live) (hi : b.ptr = item) (c : Block) (h₁ : Heap) (ha : AllocStep tg e find h size c h₁) :
      ReallocStep h item n a c.ptr ⟨(e.free tg find h₁.mem item).2, h₁.regions, h₁.live.erase b⟩

end

namespace Inv

variable {tg : Target} {e : ElfMalloc} {find : Nat → Nat → Nat} {h : Heap}

theorem init (m : Mem) : Inv tg e find ⟨m, [], []⟩ :=
  ⟨by simp, by simp, by simp, by simp, List.Pairwise.nil⟩

theorem owns_mapped (hi : Inv tg e find h) {b : Block} (hb : b ∈ h.live) {a : Nat} (ha : b.Owns a) :
    h.mem.mapped a = true := by
  cases b with
  | slab => exact ha.elim
  | large p size => exact (hi.large p size hb).mapped a ha

theorem slot_mapped (hi : Inv tg e find h) {b : Block} (hb : b ∈ h.live) :
    h.mem.mapped (roundToPage (b.ptr - 1)) = true := by
  cases b with
  | slab k p => exact hi.regionMapped _ (hi.slab k p hb).2.1
  | large p size => exact (hi.large p size hb).mapped _ (hi.large p size hb).owns_header

theorem nodup (hi : Inv tg e find h) : h.live.Nodup :=
  hi.separate.imp fun {_ _} hs heq => hs.1 (congrArg Block.ptr heq)

theorem ptr_inj (hi : Inv tg e find h) {b c : Block} (hb : b ∈ h.live) (hc : c ∈ h.live) (he : b.ptr = c.ptr) :
    b = c := by
  by_contra hne
  exact (hi.separate.forall (fun _ _ => Block.Separate.symm) hb hc hne).1 he

theorem extend (hi : Inv tg e find h) {m' : Mem} (hm : h.mem.Extends m') : Inv tg e find ⟨m', h.regions, h.live⟩ where
  slab k p hb := by
    obtain ⟨hk, hr, hp⟩ := hi.slab k p hb
    exact ⟨hk, hr, hp.of_slot (hm _ (hi.regionMapped _ hr)).2⟩
  large p size hb := (hi.large p size hb).extend hm
  regionMapped r hr := (hm r (hi.regionMapped r hr)).1
  regionFree := hi.regionFree
  separate := hi.separate

/-- Freeing a live block whose memory changes only in the mapping of bytes it owns keeps the
invariant for the others. -/
theorem erase (hi : Inv tg e find h) {b : Block} (hb : b ∈ h.live) {m' : Mem} (hinfo : m'.info = h.mem.info)
    (hmap : ∀ a, ¬ b.Owns a → m'.mapped a = h.mem.mapped a) : Inv tg e find ⟨m', h.regions, h.live.erase b⟩ := by
  have hsep : ∀ c ∈ h.live.erase b, Block.Separate b c := fun c hc =>
    hi.separate.forall (fun _ _ => Block.Separate.symm) hb (List.mem_of_mem_erase hc)
      fun heq => (hi.nodup.mem_erase_iff.1 (heq ▸ hc)).1 rfl
  refine ⟨fun k p hc => ?_, fun p size hc => ?_, fun r hr => ?_, fun r hr c hc => ?_,
    hi.separate.sublist (List.erase_sublist _ _)⟩
  · obtain ⟨hk, hr, hp⟩ := hi.slab k p (List.mem_of_mem_erase hc)
    exact ⟨hk, hr, hp.of_slot (by rw [hinfo])⟩
  · have hl := hi.large p size (List.mem_of_mem_erase hc)
    exact { hl with
      header := by rw [hinfo]; exact hl.header
      mapped := fun a ha => by rw [hmap a fun hba => (hsep _ hc).2 a hba ha]; exact hl.mapped a ha }
  · rw [hmap r (hi.regionFree r hr b hb)]; exact hi.regionMapped r hr
  · exact hi.regionFree r hr c (List.mem_of_mem_erase hc)

/-- A new block keeps the invariant when it reads back as handed out, owns no stamped region, and
is separate from every live block. -/
theorem cons (hi : Inv tg e find h) {c : Block}
    (hslab : ∀ k p, c = .slab k p → (e.allocs.get? k).isSome ∧ roundToPage (p - 1) ∈ h.regions ∧
      SlabObject h.mem find (classPages newSmallPages newLargePages (e.allocs.classSize k)).2.1
        (e.allocs.classSize k) p)
    (hlarge : ∀ p size, c = .large p size → LargeBlock tg h.mem p size)
    (hreg : ∀ r ∈ h.regions, ¬ c.Owns r) (hsep : ∀ b ∈ h.live, c.Separate b) :
    Inv tg e find ⟨h.mem, h.regions, c :: h.live⟩ where
  slab k p hb := (List.mem_cons.1 hb).elim (fun he => hslab k p he.symm) (hi.slab k p)
  large p size hb := (List.mem_cons.1 hb).elim (fun he => hlarge p size he.symm) (hi.large p size)
  regionMapped := hi.regionMapped
  regionFree r hr b hb := (List.mem_cons.1 hb).elim (fun he => he ▸ hreg r hr) (hi.regionFree r hr b)
  separate := .cons hsep hi.separate

end Inv

section Steps

variable {tg : Target} {e : ElfMalloc} {find : Nat → Nat → Nat} {h : Heap}

theorem inv_pages (hi : Inv tg e find h) {base : Nat} {v : AllocInfo}
    (hfresh : ∀ a, base ≤ a → a < base + elfmallocPageSize → h.mem.mapped a = false) :
    Inv tg e find ⟨(h.mem.carve base elfmallocPageSize).write base v, base :: h.regions, h.live⟩ := by
  have hbase := hfresh base le_rfl (by simp)
  have hx : Inv tg e find ⟨(h.mem.carve base elfmallocPageSize).write base v, h.regions, h.live⟩ :=
    hi.extend (Mem.extends_carve_write hbase)
  refine ⟨fun k p hb => ?_, hx.large, fun r hr => ?_, fun r hr b hb hown => ?_, hx.separate⟩
  · obtain ⟨hk, hr, hp⟩ := hx.slab k p hb
    exact ⟨hk, List.mem_cons_of_mem _ hr, hp⟩
  · rcases List.mem_cons.1 hr with rfl | hr
    · simp
    · exact hx.regionMapped r hr
  · rcases List.mem_cons.1 hr with rfl | hr
    · simp [hi.owns_mapped hb hown] at hbase
    · exact hi.regionFree r hr b hb hown

variable (L : ∃ ns nm, e.allocs.Layout ns nm) (hw : tg.wordObjs = true) (hword : e.allocs.wordObjs.isSome)
  (hmax : e.maxSize = e.allocs.maxKey)

include L hw hword hmax in
theorem inv_allocSlab (hi : Inv tg e find h) {n p : Nat} {k : Slot} (hd : e.alloc tg n = .cache k)
    (hreg : roundToPage (p - 1) ∈ h.regions) (hnew : ∀ b ∈ h.live, b.ptr ≠ p)
    (hp : SlabObject h.mem find (classPages newSmallPages newLargePages (e.allocs.classSize k)).2.1
      (e.allocs.classSize k) p) :
    Inv tg e find ⟨h.mem, h.regions, .slab k p :: h.live⟩ := by
  obtain ⟨ns, nm, L⟩ := L
  obtain ⟨hn, rfl⟩ := ElfMalloc.alloc_eq_cache.1 hd
  have hk := (L.getRaw_spec hw hword (hmax ▸ hn)).1
  refine hi.cons (fun k' p' he => ?_) (fun _ _ he => by cases he) (fun _ _ => id)
    fun b hb => ⟨(hnew b hb).symm, fun _ ha => ha.elim⟩
  cases he; exact ⟨hk, hreg, hp⟩

theorem inv_allocLarge (hi : Inv tg e find h) {n mem : Nat} (hmem : mem % elfmallocSmallCutoff = 0)
    (hfit : tg.Fits (n + elfmallocPageSize))
    (hfresh : ∀ a, mem ≤ a → a < mem + LargeAlloc.nPages (n + elfmallocPageSize) * elfmallocSmallCutoff →
      h.mem.mapped a = false) :
    Inv tg e find ⟨(LargeAlloc.alloc tg h.mem mem n).2, h.regions,
      .large (LargeAlloc.alloc tg h.mem mem n).1 n :: h.live⟩ := by
  obtain ⟨hres, hlo, hhi, -, -, -, -, -, haligned⟩ := LargeAlloc.alloc_header tg h.mem hmem hfit
  have hN := (LargeAlloc.nPages_spec (n + elfmallocPageSize)).1
  have hslot : h.mem.mapped (LargeAlloc.getCommitmentMut (mem + elfmallocPageSize)) = false :=
    hfresh _ hlo (by simp only [sizeOfAllocInfo, LargeAlloc.alloc_fst] at hhi; omega)
  have hx : Inv tg e find ⟨(LargeAlloc.alloc tg h.mem mem n).2, h.regions, h.live⟩ :=
    hi.extend (Mem.extends_carve_write hslot)
  have hown : ∀ a, (Block.large (mem + elfmallocPageSize) n).Owns a →
      mem ≤ a ∧ a < mem + LargeAlloc.nPages (n + elfmallocPageSize) * elfmallocSmallCutoff := fun a ha => by
    simpa [Block.Owns] using ha
  have hnew : LargeBlock tg (LargeAlloc.alloc tg h.mem mem n).2 (mem + elfmallocPageSize) n :=
    ⟨Nat.le_add_left _ _, haligned, hfit,
      by rw [LargeAlloc.alloc_info_slot, Target.wrap_of_fits hfit, Nat.add_sub_cancel],
      fun a ha => by
        have := hown a ha
        simp only [LargeAlloc.alloc_mapped, Target.wrap_of_fits hfit, Bool.or_eq_true, Bool.and_eq_true,
          decide_eq_true_eq]
        exact .inr this⟩
  have hold : ∀ a, (Block.large (mem + elfmallocPageSize) n).Owns a → h.mem.mapped a = false := fun a ha =>
    hfresh a (hown a ha).1 (hown a ha).2
  refine hx.cons (fun _ _ he => by cases he) (fun p size he => by cases he; exact hnew)
    (fun r hr ha => absurd (hi.regionMapped r hr) (by simp [hold r ha]))
    fun b hb => ⟨fun heq => ?_, fun a ha hb' => absurd (hi.owns_mapped hb hb') (by simp [hold a ha])⟩
  have := hi.slot_mapped hb
  rw [← heq] at this
  rw [LargeAlloc.getCommitmentMut, ← hres] at hslot
  exact absurd this (by simp only [Block.ptr]; rw [hslot]; decide)

include L hw hword in
/-- `free` of a live block goes to the block's own destination and leaves memory as `Block.freed`
says. -/
theorem Inv.free_eq (hi : Inv tg e find h) {b : Block} (hb : b ∈ h.live) :
    e.free tg find h.mem b.ptr = (b.dest, b.freed tg h.mem) := by
  obtain ⟨ns, nm, L⟩ := L
  cases b with
  | slab k p =>
    obtain ⟨hk, -, hp⟩ := hi.slab k p hb
    exact (ElfMalloc.classDispatch_of_layout L hw hword hk hp).2.2.2.2.2
  | large p size =>
    have hl := hi.large p size hb
    simp [ElfMalloc.free, Block.ptr, hl.getPageSize_eq, hl.free_eq, Block.dest, Block.freed]

include L hw hword in
theorem inv_free (hos : tg.osPageSize ∣ elfmallocSmallCutoff) (hi : Inv tg e find h) {b : Block}
    (hb : b ∈ h.live) : Inv tg e find ⟨(e.free tg find h.mem b.ptr).2, h.regions, h.live.erase b⟩ := by
  rw [hi.free_eq L hw hword hb]
  cases b with
  | slab k p => exact hi.erase hb rfl fun _ _ => rfl
  | large p size =>
    have hr := roundToOsPage_le hos (size + elfmallocPageSize)
    refine hi.erase hb rfl fun a ha => ?_
    simp only [Block.freed, Mem.unmap_mapped]
    simp only [Block.Owns, not_and, not_lt] at ha
    cases hm : h.mem.mapped a <;> simp only [Bool.false_and, Bool.true_and, Bool.not_eq_true',
      Bool.and_eq_false_iff, decide_eq_false_iff_not, not_and, not_lt]
    omega

theorem Inv.getType_eq_large (hi : Inv tg e find h) {b : Block} (hb : b ∈ h.live) :
    getType h.mem b.ptr = .Large ↔ ∃ p size, b = .large p size := by
  cases b with
  | slab k p =>
    have htag := (hi.slab k p hb).2.2.tag
    rw [ElfMalloc.classPages_new] at htag
    simp only [Block.ptr, htag, reduceCtorEq, exists_false, iff_false]
    split <;> decide
  | large p size =>
    simp [Block.ptr, LargeAlloc.getType_eq, (hi.large p size hb).header]

theorem Inv.slab_of_ne_large (hi : Inv tg e find h) {b : Block} (hb : b ∈ h.live)
    (ht : getType h.mem b.ptr ≠ .Large) : ∃ k, b = .slab k b.ptr := by
  cases b with
  | slab k p => exact ⟨k, rfl⟩
  | large p size => exact absurd ((hi.getType_eq_large hb).2 ⟨p, size, rfl⟩) ht

include L hw hword in
/-- `global::get_layout` of a live block reports its layout. -/
theorem Inv.layout_eq (hi : Inv tg e find h) {b : Block} (hb : b ∈ h.live) :
    globalGetLayout tg find h.mem b.ptr = b.layout tg e := by
  obtain ⟨ns, nm, L⟩ := L
  cases b with
  | slab k p =>
    obtain ⟨hk, -, hp⟩ := hi.slab k p hb
    have hd := ElfMalloc.classDispatch_of_layout L hw hword hk hp
    have hne : getType h.mem p ≠ .Large := fun h' =>
      absurd ((hi.getType_eq_large hb).1 h') (by simp)
    simp only [Block.ptr, globalGetLayout]
    rw [hd.2.2.2.2.1, slab_layout hne, hp.objectSize]; rfl
  | large p size =>
    have hl := hi.large p size hb
    have ht : getType h.mem p = .Large := by rw [LargeAlloc.getType_eq, hl.header]
    simp only [Block.ptr, globalGetLayout, elfmallocGetLayout, ht, Block.layout, LargeAlloc.getSize,
      LargeAlloc.getCommitment, hl.header, Target.wsub_of_le (Nat.le_add_left _ _) hl.fits, Nat.add_sub_cancel]

end Steps

variable {tg : Target} {e : ElfMalloc} {find : Nat → Nat → Nat} {h : Heap}

theorem step_inv (hwf : e.Wf tg) {h h' : Heap} (hi : Inv tg e find h) (hs : Step tg e find h h') :
    Inv tg e find h' := by
  cases hs with
  | pages base v hfresh => exact inv_pages hi hfresh
  | allocSlab n p k hd hreg hnew hp =>
    exact inv_allocSlab hwf.layout hwf.word hwf.wordObjs hwf.maxSize hi hd hreg hnew hp
  | allocLarge n mem hmem hfit hfresh => exact inv_allocLarge hi hmem hfit hfresh
  | free b hb => exact inv_free hwf.layout hwf.word hwf.wordObjs hwf.osPage hi hb

theorem reachable_inv (hwf : e.Wf tg) (hr : Reachable tg e find h) : Inv tg e find h := by
  induction hr with
  | init m => exact Inv.init m
  | step _ hs ih => exact step_inv hwf ih hs

theorem Reachable.star {h' : Heap} (hr : Reachable tg e find h) (hs : Relation.ReflTransGen (Step tg e find) h h') :
    Reachable tg e find h' := by
  induction hs with
  | refl => exact hr
  | tail _ hs ih => exact .step ih hs

/-! ## `realloc` -/

namespace AllocStep

variable {h' : Heap} {n : Nat} {c : Block}

theorem step (ha : AllocStep tg e find h n c h') : Step tg e find h h' := by
  cases ha with
  | slab p k hd hreg hnew hp => exact .allocSlab h n p k hd hreg hnew hp
  | large mem _ hmem hfit hfresh => exact .allocLarge h n mem hmem hfit hfresh

theorem live (ha : AllocStep tg e find h n c h') : h'.live = c :: h.live := by
  cases ha <;> rfl

theorem layout (ha : AllocStep tg e find h n c h') : c.layout tg e = e.allocLayout tg n := by
  cases ha with
  | slab p k hd => simp [ElfMalloc.allocLayout, hd, Block.layout]
  | large mem hd => simp [ElfMalloc.allocLayout, hd, Block.layout]

end AllocStep

namespace ReallocStep

variable {item n a q : Nat} {h' : Heap}

/-- A `realloc` is a run of the heap: an `alloc`, a `free`, nothing, or an `alloc` then a `free`. -/
theorem steps (hs : ReallocStep tg e find h item n a q h') : Relation.ReflTransGen (Step tg e find) h h' := by
  cases hs with
  | alloc size _ c h' ha => exact .single ha.step
  | freed b hb hi => subst hi; exact .single (.free h b hb)
  | same => exact .refl
  | moved size copied _ b hb hi c h₁ ha =>
    subst hi
    exact .tail (.single ha.step) (.free _ b (ha.live ▸ List.mem_cons_of_mem _ hb))

theorem live_of_ne (hs : ReallocStep tg e find h item n a q h') {c : Block} (hc : c ∈ h.live) (hne : c.ptr ≠ item) :
    c ∈ h'.live := by
  cases hs with
  | alloc size _ c' h' ha => exact ha.live ▸ List.mem_cons_of_mem _ hc
  | freed b _ hi => exact (List.mem_erase_of_ne (by rintro rfl; exact hne hi)).2 hc
  | same => exact hc
  | moved size copied _ b _ hi c' h₁ ha =>
    exact (List.mem_erase_of_ne (by rintro rfl; exact hne hi)).2 (ha.live ▸ List.mem_cons_of_mem _ hc)

end ReallocStep

/-- In every reachable heap, the block `realloc` hands back, unless it frees `item`, is live
after the call, and `global::get_layout` reads back the layout `realloc` promises for it. -/
theorem realloc_readBack (hwf : e.Wf tg) (hr : Reachable tg e find h) {item n a q : Nat} {h' : Heap}
    (hs : ReallocStep tg e find h item n a q h') (hn : ElfMalloc.realloc tg find h.mem item n a ≠ .freed) :
    (∃ c ∈ h'.live, c.ptr = q) ∧
      e.reallocLayout tg find h.mem item (ElfMalloc.realloc tg find h.mem item n a) =
        some (globalGetLayout tg find h'.mem q) := by
  have hi' := reachable_inv hwf (hr.star hs.steps)
  have layout := fun {c} (hc : c ∈ h'.live) => hi'.layout_eq hwf.layout hwf.word hwf.wordObjs hc
  cases hs with
  | alloc size hrs c h' ha =>
    have hc : c ∈ h'.live := ha.live ▸ List.mem_cons_self _ _
    exact ⟨⟨c, hc, rfl⟩, by rw [hrs, layout hc, ha.layout]; rfl⟩
  | freed => exact absurd ‹_› hn
  | same b hb hi hrs => exact ⟨⟨b, hb, hi⟩, by rw [hrs]; rfl⟩
  | moved size copied hrs b hb hi c h₁ ha =>
    have hnd := (reachable_inv hwf (hr.step ha.step)).nodup
    rw [ha.live] at hnd
    have hcb : c ≠ b := fun he => (List.nodup_cons.1 hnd).1 (he ▸ hb)
    have hc : c ∈ h₁.live.erase b := (List.mem_erase_of_ne hcb).2 (ha.live ▸ List.mem_cons_self _ _)
    exact ⟨⟨c, hc, rfl⟩, by rw [hrs, layout hc, ha.layout]; rfl⟩

/-! ## What every run guarantees -/

/-- On 64-bit Linux, `new()`'s heap after one 2 MiB request carved at `2 ^ 21`. -/
theorem reachable_large_linux64 :
    let r := LargeAlloc.alloc Target.linux64 ⟨fun _ => ⟨.Large, 0, 0⟩, fun _ => false⟩ (2 ^ 21) (2 ^ 21)
    (ElfMalloc.new Target.linux64).Wf Target.linux64 ∧
      Reachable Target.linux64 (ElfMalloc.new Target.linux64) (fun _ _ => 0) ⟨r.2, [], [.large r.1 (2 ^ 21)]⟩ :=
  ⟨ElfMalloc.new_wf rfl (.inr (by decide)) (by decide),
    .step (.init _) (.allocLarge _ _ _ (by decide) (.inr (by decide)) fun _ _ _ => rfl)⟩

/-- In every reachable heap, `free` of a live block goes to the block's own class, or to
`large_alloc`, which unmaps the region the block's header records. -/
theorem free_live (hwf : e.Wf tg) (hr : Reachable tg e find h) {b : Block} (hb : b ∈ h.live) :
    e.free tg find h.mem b.ptr = (b.dest, b.freed tg h.mem) :=
  (reachable_inv hwf hr).free_eq hwf.layout hwf.word hwf.wordObjs hb

/-- A 2 MiB request, carved at `2 ^ 21` on 64-bit Linux, is freed through `large_alloc`. -/
theorem free_live_large :
    let m : Mem := ⟨fun _ => ⟨.Large, 0, 0⟩, fun _ => false⟩
    let r := LargeAlloc.alloc Target.linux64 m (2 ^ 21) (2 ^ 21)
    let h : Heap := ⟨r.2, [], [.large r.1 (2 ^ 21)]⟩
    (ElfMalloc.new Target.linux64).Wf Target.linux64 ∧
      Reachable Target.linux64 (ElfMalloc.new Target.linux64) (fun _ _ => 0) h ∧ Block.large r.1 (2 ^ 21) ∈ h.live ∧
      (ElfMalloc.new Target.linux64).free Target.linux64 (fun _ _ => 0) h.mem (Block.large r.1 (2 ^ 21)).ptr =
        ((Block.large r.1 (2 ^ 21)).dest, (Block.large r.1 (2 ^ 21)).freed Target.linux64 h.mem) := by
  intro m r h
  obtain ⟨hwf, hr⟩ := reachable_large_linux64
  exact ⟨hwf, hr, List.mem_singleton_self _, free_live hwf hr (List.mem_singleton_self _)⟩

/-- In every reachable heap, `global::get_layout` of a live block reports its class's size and
alignment, or a large block's size and the OS page. -/
theorem layout_live (hwf : e.Wf tg) (hr : Reachable tg e find h) {b : Block} (hb : b ∈ h.live) :
    globalGetLayout tg find h.mem b.ptr = b.layout tg e :=
  (reachable_inv hwf hr).layout_eq hwf.layout hwf.word hwf.wordObjs hb

theorem layout_live_large :
    let m : Mem := ⟨fun _ => ⟨.Large, 0, 0⟩, fun _ => false⟩
    let r := LargeAlloc.alloc Target.linux64 m (2 ^ 21) (2 ^ 21)
    let h : Heap := ⟨r.2, [], [.large r.1 (2 ^ 21)]⟩
    (ElfMalloc.new Target.linux64).Wf Target.linux64 ∧
      Reachable Target.linux64 (ElfMalloc.new Target.linux64) (fun _ _ => 0) h ∧ Block.large r.1 (2 ^ 21) ∈ h.live ∧
      globalGetLayout Target.linux64 (fun _ _ => 0) h.mem (Block.large r.1 (2 ^ 21)).ptr =
        (Block.large r.1 (2 ^ 21)).layout Target.linux64 (ElfMalloc.new Target.linux64) := by
  intro m r h
  obtain ⟨hwf, hr⟩ := reachable_large_linux64
  exact ⟨hwf, hr, List.mem_singleton_self _, layout_live hwf hr (List.mem_singleton_self _)⟩

/-- In every reachable heap, the fast path of `get_page_size` answers for every live block as the
tag would: medium objects and large blocks sit on the 64 KiB grid, so a pointer off it is a small
object, in a region stamped `SmallSlag`. -/
theorem getPageSize_live (hwf : e.Wf tg) (hr : Reachable tg e find h) {b : Block} (hb : b ∈ h.live) :
    ElfMalloc.getPageSize h.mem b.ptr = ElfMalloc.getPageSizeByTag h.mem b.ptr := by
  have hi := reachable_inv hwf hr
  apply ElfMalloc.getPageSize_eq_byTag
  cases b with
  | slab k p =>
    obtain ⟨ns, nm, L⟩ := hwf.layout
    obtain ⟨hk, -, hp⟩ := hi.slab k p hb
    have hfast := (ElfMalloc.classDispatch_of_layout L hwf.word hwf.wordObjs hk hp).1
    have htag := hp.tag
    rw [ElfMalloc.classPages_new] at htag
    by_cases hs : e.allocs.classSize k < elfmallocSmallCutoff
    · exact .inr (by rw [Block.ptr, htag, if_pos hs]; rfl)
    · exact .inl (hfast (by omega))
  | large p size => exact .inl (hi.large p size hb).aligned

theorem getPageSize_live_large :
    let m : Mem := ⟨fun _ => ⟨.Large, 0, 0⟩, fun _ => false⟩
    let r := LargeAlloc.alloc Target.linux64 m (2 ^ 21) (2 ^ 21)
    let h : Heap := ⟨r.2, [], [.large r.1 (2 ^ 21)]⟩
    (ElfMalloc.new Target.linux64).Wf Target.linux64 ∧
      Reachable Target.linux64 (ElfMalloc.new Target.linux64) (fun _ _ => 0) h ∧ Block.large r.1 (2 ^ 21) ∈ h.live ∧
      ElfMalloc.getPageSize h.mem (Block.large r.1 (2 ^ 21)).ptr =
        ElfMalloc.getPageSizeByTag h.mem (Block.large r.1 (2 ^ 21)).ptr := by
  intro m r h
  obtain ⟨hwf, hr⟩ := reachable_large_linux64
  exact ⟨hwf, hr, List.mem_singleton_self _, getPageSize_live hwf hr (List.mem_singleton_self _)⟩

/-- In every reachable heap, every byte a live large block was asked for is mapped. -/
theorem large_live_mapped (hwf : e.Wf tg) (hr : Reachable tg e find h) {p size : Nat}
    (hb : Block.large p size ∈ h.live) {a : Nat} (h₁ : p ≤ a) (h₂ : a < p + size) : h.mem.mapped a = true := by
  have hl := (reachable_inv hwf hr).large p size hb
  have := hl.base_le
  have := (LargeAlloc.nPages_spec (size + elfmallocPageSize)).1
  exact hl.mapped a ⟨by omega, by omega⟩

theorem large_live_mapped_first :
    let m : Mem := ⟨fun _ => ⟨.Large, 0, 0⟩, fun _ => false⟩
    let r := LargeAlloc.alloc Target.linux64 m (2 ^ 21) (2 ^ 21)
    let h : Heap := ⟨r.2, [], [.large r.1 (2 ^ 21)]⟩
    (ElfMalloc.new Target.linux64).Wf Target.linux64 ∧
      Reachable Target.linux64 (ElfMalloc.new Target.linux64) (fun _ _ => 0) h ∧
      Block.large r.1 (2 ^ 21) ∈ h.live ∧ r.1 ≤ r.1 ∧ r.1 < r.1 + 2 ^ 21 ∧ h.mem.mapped r.1 = true := by
  intro m r h
  obtain ⟨hwf, hr⟩ := reachable_large_linux64
  have h₂ : r.1 < r.1 + 2 ^ 21 := Nat.lt_add_of_pos_right (Nat.two_pow_pos _)
  exact ⟨hwf, hr, List.mem_singleton_self _, le_rfl, h₂,
    large_live_mapped hwf hr (List.mem_singleton_self _) le_rfl h₂⟩

/-- In every reachable heap the mappings of two live blocks share no byte, and none of them holds
a stamped region's tag slot: `large_alloc` never hands out memory that another live block or a
page source uses. -/
theorem owned_disjoint (hwf : e.Wf tg) (hr : Reachable tg e find h) {b c : Block} (hb : b ∈ h.live)
    (hc : c ∈ h.live) (hbc : b ≠ c) {a : Nat} (ha : b.Owns a) : ¬ c.Owns a ∧ a ∉ h.regions := by
  have hi := reachable_inv hwf hr
  exact ⟨(hi.separate.forall (fun _ _ => Block.Separate.symm) hb hc hbc).2 a ha,
    fun hreg => hi.regionFree a hreg b hb ha⟩

/-- Two large blocks, carved at `2 ^ 21` and at `2 ^ 30`: the first one's pointer lies in its own
mapping only. -/
theorem owned_disjoint_two_large :
    let m : Mem := ⟨fun _ => ⟨.Large, 0, 0⟩, fun _ => false⟩
    let r := LargeAlloc.alloc Target.linux64 m (2 ^ 21) (2 ^ 21)
    let b : Block := .large r.1 (2 ^ 21)
    let r' := LargeAlloc.alloc Target.linux64 r.2 (2 ^ 30) 1
    let c : Block := .large r'.1 1
    let h : Heap := ⟨r'.2, [], [c, b]⟩
    (ElfMalloc.new Target.linux64).Wf Target.linux64 ∧
      Reachable Target.linux64 (ElfMalloc.new Target.linux64) (fun _ _ => 0) h ∧ b ∈ h.live ∧ c ∈ h.live ∧
      b ≠ c ∧ b.Owns r.1 ∧ ¬ c.Owns r.1 ∧ r.1 ∉ h.regions := by
  intro m r b r' c h
  obtain ⟨hwf, hr₁⟩ := reachable_large_linux64
  have hfresh : ∀ a, 2 ^ 30 ≤ a → a < 2 ^ 30 + LargeAlloc.nPages (1 + elfmallocPageSize) * elfmallocSmallCutoff →
      r.2.mapped a = false := fun a h1 _ => by
    simp only [r, m, LargeAlloc.alloc_mapped, Bool.false_or, Bool.and_eq_false_iff, decide_eq_false_iff_not,
      Target.wrap, Target.linux64, LargeAlloc.nPages, elfmallocPageSize_eq, elfmallocSmallCutoff_eq]
    omega
  have hr : Reachable Target.linux64 (ElfMalloc.new Target.linux64) (fun _ _ => 0) h :=
    .step hr₁ (.allocLarge _ 1 (2 ^ 30) (by decide) (.inr (by decide)) hfresh)
  have hb : b ∈ h.live := List.mem_cons_of_mem _ (List.mem_singleton_self _)
  have hbc : b ≠ c := fun he => absurd (Block.large.inj he).2 (by decide)
  have ha : b.Owns r.1 := ((reachable_inv hwf hr).large _ _ hb).owns_ptr (Nat.two_pow_pos 21)
  obtain ⟨h₁, h₂⟩ := owned_disjoint hwf hr hb (List.mem_cons_self _ _) hbc ha
  exact ⟨hwf, hr, hb, List.mem_cons_self _ _, hbc, ha, h₁, h₂⟩

/-- In every reachable heap, a `realloc` that moves a block frees the old block, and
`copy_nonoverlapping` copies no more bytes than the old block or the new one holds. -/
theorem realloc_copy_within (hwf : e.Wf tg) (hr : Reachable tg e find h) {item n a q size copied : Nat}
    {h' : Heap} (hs : ReallocStep tg e find h item n a q h')
    (hm : ElfMalloc.realloc tg find h.mem item n a = .moved size copied) :
    ∃ b ∈ h.live, b.ptr = item ∧ b ∉ h'.live ∧ ∃ c ∈ h'.live, c.ptr = q ∧
      copied ≤ (b.layout tg e).1 ∧ copied ≤ (c.layout tg e).1 := by
  obtain ⟨ns, nm, L⟩ := hwf.layout
  cases hs with
  | alloc _ hrs | freed _ _ _ hrs | same _ _ _ hrs => rw [hrs] at hm; cases hm
  | moved size' copied' hrs b hb hi c h₁ ha =>
    rw [hrs] at hm
    obtain ⟨rfl, rfl⟩ := ElfMalloc.Realloc.moved.inj hm
    have hcopy := ElfMalloc.realloc_eq_moved hrs
    have hnd := (reachable_inv hwf (hr.step ha.step)).nodup
    rw [ha.live] at hnd
    have hcb : c ≠ b := fun he => (List.nodup_cons.1 hnd).1 (he ▸ hb)
    have hlive : h₁.live = c :: h.live := ha.live
    refine ⟨b, hb, hi, show b ∉ h₁.live.erase b from hlive ▸ hnd.not_mem_erase, c,
      (List.mem_erase_of_ne hcb).2 (hlive ▸ List.mem_cons_self _ _), rfl, ?_, ?_⟩
    · rw [hcopy, ← hi, (reachable_inv hwf hr).layout_eq hwf.layout hwf.word hwf.wordObjs hb]
      exact min_le_left _ _
    · rw [hcopy, ha.layout]
      exact (min_le_right _ _).trans (ElfMalloc.le_allocLayout L hwf.word hwf.wordObjs hwf.maxSize _)

/-- Growing the 2 MiB block by one byte, with `alignment = 8`: `large_alloc` maps the new block at
`2 ^ 30`, 2 MiB are copied, and the old block is freed. -/
theorem realloc_copy_within_large :
    let m : Mem := ⟨fun _ => ⟨.Large, 0, 0⟩, fun _ => false⟩
    let r := LargeAlloc.alloc Target.linux64 m (2 ^ 21) (2 ^ 21)
    let b : Block := .large r.1 (2 ^ 21)
    let h : Heap := ⟨r.2, [], [b]⟩
    let r' := LargeAlloc.alloc Target.linux64 r.2 (2 ^ 30) (2 ^ 21 + 1)
    let c : Block := .large r'.1 (2 ^ 21 + 1)
    let h' : Heap := ⟨((ElfMalloc.new Target.linux64).free Target.linux64 (fun _ _ => 0) r'.2 b.ptr).2, [],
      [c, b].erase b⟩
    (ElfMalloc.new Target.linux64).Wf Target.linux64 ∧
      Reachable Target.linux64 (ElfMalloc.new Target.linux64) (fun _ _ => 0) h ∧
      ReallocStep Target.linux64 (ElfMalloc.new Target.linux64) (fun _ _ => 0) h b.ptr (2 ^ 21 + 1) 8 c.ptr h' ∧
      ElfMalloc.realloc Target.linux64 (fun _ _ => 0) h.mem b.ptr (2 ^ 21 + 1) 8 = .moved (2 ^ 21 + 1) (2 ^ 21) ∧
      ∃ b' ∈ h.live, b'.ptr = b.ptr ∧ b' ∉ h'.live ∧ ∃ c' ∈ h'.live, c'.ptr = c.ptr ∧
        2 ^ 21 ≤ (b'.layout Target.linux64 (ElfMalloc.new Target.linux64)).1 ∧
        2 ^ 21 ≤ (c'.layout Target.linux64 (ElfMalloc.new Target.linux64)).1 := by
  intro m r b h r' c h'
  obtain ⟨hwf, hr⟩ := reachable_large_linux64
  have hm : ElfMalloc.realloc Target.linux64 (fun _ _ => 0) h.mem b.ptr (2 ^ 21 + 1) 8 = .moved (2 ^ 21 + 1) (2 ^ 21) := by
    decide
  have hd : (ElfMalloc.new Target.linux64).alloc Target.linux64 (2 ^ 21 + 1) = .large := by
    rw [ElfMalloc.alloc, if_neg (by rw [ElfMalloc.new_maxSize (.inr (by decide))]; decide)]
  have hfresh : ∀ a, 2 ^ 30 ≤ a → a < 2 ^ 30 + LargeAlloc.nPages (2 ^ 21 + 1 + elfmallocPageSize) * elfmallocSmallCutoff →
      h.mem.mapped a = false := fun a h1 _ => by
    simp only [h, r, m, LargeAlloc.alloc_mapped, Bool.false_or, Bool.and_eq_false_iff, decide_eq_false_iff_not,
      Target.wrap, Target.linux64, LargeAlloc.nPages, elfmallocPageSize_eq, elfmallocSmallCutoff_eq]
    omega
  have hs : ReallocStep Target.linux64 (ElfMalloc.new Target.linux64) (fun _ _ => 0) h b.ptr (2 ^ 21 + 1) 8 c.ptr h' :=
    .moved _ _ hm b (List.mem_singleton_self _) rfl _ _ (.large h _ _ hd (by decide) (.inr (by decide)) hfresh)
  exact ⟨hwf, hr, hs, hm, realloc_copy_within hwf hr hs hm⟩

end Heap

end Elfmalloc
