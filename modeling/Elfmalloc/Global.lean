import Elfmalloc.Heap
/-!
# The global front end

`global`: the instance `ELF_HEAP` holds `ElfMalloc::new()`; each thread's `LOCAL_ELF_HEAP` slot
holds a `GlobalAllocator`, a clone of it (`new_handle`), and a background thread, with a handle
of its own, reads `Husk`s from `DESTRUCTOR_CHAN`. `global::alloc` and `global::free` use the
thread's handle while its slot is live; a thread without one sends every allocation to
`large_alloc` and every slab pointer it frees to the background thread. A slot's destructor
sends the handle's instance to the background thread; a second run, which the platform has been
seen to make, finds `dropped` set and does nothing. `get_layout` and `aligned_realloc` on a thread
without a handle clone a transient one, which is dropped, and so sent, when the call returns.

A `World` is the process: the heap, every thread's slot, the channel and what the background
thread has dropped, each message tagged with its sender. The runs admit only large requests
whose `region_size` fits in `usize`, as `Heap`'s do. Any interleaving of the threads' calls,
their slots' destructors and the background thread is then a run of the heap (`heap_reachable`),
so `Heap`'s results hold of it. The instance a slot holds is sent exactly once once the slot's
destructor has run, however often it runs (`retired_once`); a thread without a handle frees as
`new()` would or hands the object to the background thread (`free_on_any_thread`); a pointer
waiting in the channel is a live slab object that nothing else frees; the background thread alone
can always empty the channel, freeing each such object into its class (`drain`); and
`aligned_realloc`, which on a thread without a handle runs through transient clones, hands back a
block whose layout covers the request (`aligned_realloc_meets_request`).
-/

namespace Elfmalloc

open ElfMalloc (classPages newSmallPages newLargePages)

namespace Global

/-- `GlobalAllocator`: a thread's instance and whether its destructor has run. -/
structure GlobalAllocator where
  alloc : ElfMalloc
  dropped : Bool

/-- `Husk`: a message to the background thread. -/
inductive Husk where
  | array (e : ElfMalloc)
  | ptr (p : Nat)
  | slag (p : Nat)

namespace Husk

/-- The message retires an instance. -/
def isArray : Husk → Bool
  | array _ => true
  | _ => false

/-- The pointer the message asks the background thread to free. -/
def ptr? : Husk → Option Nat
  | ptr p => some p
  | _ => none

end Husk

/-- `new_handle`: a clone of `ELF_HEAP`'s instance, not yet dropped. -/
def newHandle (tg : Target) : GlobalAllocator := ⟨ElfMalloc.clone tg (ElfMalloc.new tg), false⟩

/-- `Drop for GlobalAllocator`: the first call sends the instance to the background thread and
sets `dropped`; a later call does nothing. Returns the handle and the messages sent. -/
def GlobalAllocator.drop (g : GlobalAllocator) : GlobalAllocator × List Husk :=
  if g.dropped then (g, []) else ({ g with dropped := true }, [.array g.alloc])

/-- Modelled from the spec: a thread's `LOCAL_ELF_HEAP` slot, never touched, holding the
thread's handle, or torn down after its destructor ran (the handle stays, a second destructor
run reads it). -/
inductive Tls where
  | uninit
  | live (g : GlobalAllocator)
  | dead (g : GlobalAllocator)

namespace Tls

/-- Modelled from the spec: what `alloc_tls_fast_with!` hands over, only a live slot's handle. -/
def handle? : Tls → Option GlobalAllocator
  | live g => some g
  | _ => none

/-- The slot's destructor has run. -/
def isDead : Tls → Bool
  | dead _ => true
  | _ => false

end Tls

/-- `global::alloc(size)`: the handle's `alloc`; with no handle, `large_alloc::alloc` whatever
the size. -/
def alloc (tg : Target) (slot : Tls) (size : Nat) : Dest :=
  match slot.handle? with
  | some g => g.alloc.alloc tg size
  | none => .large

/-- What `global::free` does with an item: frees it now, into a class's cache or through
`large_alloc`, leaving memory `m`, or sends it to the background thread. -/
inductive Freed where
  | now (d : Dest) (m : Mem)
  | sent

/-- `global::free(item)`: the handle's `free`; with no handle, `large_alloc::free` for a `Large`
tag and a `Ptr` message to the background thread otherwise. -/
def free (tg : Target) (find : Nat → Nat → Nat) (slot : Tls) (m : Mem) (item : Nat) : Freed :=
  match slot.handle? with
  | some g => .now (g.alloc.free tg find m item).1 (g.alloc.free tg find m item).2
  | none =>
    match getType m item with
    | .Large => .now .large (LargeAlloc.free tg m item)
    | .SmallSlag | .BigSlag => .sent

/-- `with_local_or_clone`: the thread's handle, or a fresh `new_handle()` that is dropped, and so
retired, when the call returns. -/
def withLocalOrClone (tg : Target) (slot : Tls) : GlobalAllocator × List Husk :=
  match slot.handle? with
  | some g => (g, [])
  | none => (newHandle tg, (newHandle tg).drop.2)

/-- `global::get_layout(item)`: the page size of the small pages (`SmallSlag`, `Large`) or large
pages (`BigSlag`) of `with_local_or_clone`'s handle, then `elfmalloc_get_layout`. Returns the
messages the transient handle's drop sends. On a thread without a handle the code reads the page
source through a reference into the transient handle, which is gone by then; the model reads the
handle's page size as if that reference were still good. -/
def getLayout (tg : Target) (find : Nat → Nat → Nat) (slot : Tls) (m : Mem) (item : Nat) :
    (Nat × Nat) × List Husk :=
  let r := withLocalOrClone tg slot
  let blockPageSize := match getType m item with
    | .SmallSlag | .Large => r.1.alloc.smallPages.pageSize
    | .BigSlag => r.1.alloc.largePages.pageSize
  (elfmallocGetLayout tg find blockPageSize m item, r.2)

/-- `global::aligned_realloc(item, newSize, _)`: the handle `with_local_or_clone` gives, whose
`ElfMalloc::realloc` does the work, and the messages transient handles send on a thread with no
handle: first the one `global::get_layout` clones when `realloc` reads the old layout (`item` not
null, `newSize` not zero), then the call's own. -/
def alignedRealloc (tg : Target) (find : Nat → Nat → Nat) (slot : Tls) (m : Mem) (item newSize : Nat) :
    GlobalAllocator × List Husk :=
  ((withLocalOrClone tg slot).1,
    (if item = 0 ∨ newSize = 0 then [] else (getLayout tg find slot m item).2) ++ (withLocalOrClone tg slot).2)

/-- Who sent a message to the background thread (ghost): thread `t`'s slot destructor, with the
slot's own instance; thread `t`'s `global::free`; or the drop of a transient handle
`with_local_or_clone` cloned on thread `t`. -/
inductive Sender where
  | slot (t : Nat)
  | thread (t : Nat)
  | transient (t : Nat)
  deriving DecidableEq, Repr

/-- The process: the heap, every thread's slot, the channel to the background thread with each
message's sender, and the senders of the instances the background thread has dropped. -/
structure World where
  heap : Heap
  tls : Nat → Tls
  chan : List (Sender × Husk)
  retired : List Sender

/-- The `Array` messages in the channel that thread `t`'s slot destructor sent. -/
def slotArrays (t : Nat) (chan : List (Sender × Husk)) : Nat :=
  chan.countP fun m => m.1 == .slot t && m.2.isArray

/-- The pointers the channel asks the background thread to free. -/
def pending (chan : List (Sender × Husk)) : List Nat :=
  chan.filterMap fun m => m.2.ptr?

section
variable (tg : Target) (find : Nat → Nat → Nat)

/-- The background thread handles the message at the head of the channel. -/
inductive Background : World → World → Prop
  /-- It drops a retired instance. -/
  | dropArray (w : World) (s : Sender) (e : ElfMalloc) (rest : List (Sender × Husk))
      (hc : w.chan = (s, .array e) :: rest) :
      Background w { w with chan := rest, retired := w.retired ++ [s] }
  /-- It frees a pointer with its own handle. -/
  | freePtr (w : World) (s : Sender) (b : Block) (rest : List (Sender × Husk))
      (hc : w.chan = (s, .ptr b.ptr) :: rest) (hb : b ∈ w.heap.live) :
      Background w { w with
        heap := ⟨((newHandle tg).alloc.free tg find w.heap.mem b.ptr).2, w.heap.regions, w.heap.live.erase b⟩,
        chan := rest }
  /-- It dirties a slag's pages (`dirty_slag`; page contents are not modelled). -/
  | dirty (w : World) (s : Sender) (p : Nat) (rest : List (Sender × Husk))
      (hc : w.chan = (s, .slag p) :: rest) :
      Background w { w with chan := rest }

/-- One step of the process: a thread's call or its slot's destructor, a message handled by
the background thread, or a page source stamping a region. -/
inductive Step : World → World → Prop
  /-- A thread's first call into the allocator fills its slot with `new_handle()`. -/
  | touch (w : World) (t : Nat) (h : w.tls t = .uninit) :
      Step w { w with tls := Function.update w.tls t (.live (newHandle tg)) }
  /-- The slot's destructor, run once or, spuriously, again. -/
  | destroy (w : World) (t : Nat) (g : GlobalAllocator) (h : w.tls t = .live g ∨ w.tls t = .dead g) :
      Step w { w with tls := Function.update w.tls t (.dead g.drop.1),
                      chan := w.chan ++ g.drop.2.map (.slot t, ·) }
  /-- `get_layout` or `aligned_realloc` on a thread with no handle: `with_local_or_clone`
  clones a handle and drops it. -/
  | transient (w : World) (t : Nat) (h : (w.tls t).handle? = none) :
      Step w { w with chan := w.chan ++ (withLocalOrClone tg (w.tls t)).2.map (.transient t, ·) }
  /-- `global::alloc(n)` served by a class, whose cache hands out an object `p` of that class
  from a stamped region; `p` is not live. -/
  | allocSlab (w : World) (t n p : Nat) (k : Slot) (hd : alloc tg (w.tls t) n = .cache k)
      (hreg : roundToPage (p - 1) ∈ w.heap.regions) (hnew : ∀ b ∈ w.heap.live, b.ptr ≠ p)
      (hp : SlabObject w.heap.mem find (classPages newSmallPages newLargePages
        ((ElfMalloc.new tg).allocs.classSize k)).2.1 ((ElfMalloc.new tg).allocs.classSize k) p) :
      Step w { w with heap := ⟨w.heap.mem, w.heap.regions, .slab k p :: w.heap.live⟩ }
  /-- `global::alloc(n)` reaching `large_alloc::alloc`: the OS maps fresh units at `mem`. Only a
  request whose `region_size` fits in `usize` (`hfit`), as in `Heap.Step.allocLarge`. -/
  | allocLarge (w : World) (t n mem : Nat) (hd : alloc tg (w.tls t) n = .large)
      (hmem : mem % elfmallocSmallCutoff = 0) (hfit : tg.Fits (n + elfmallocPageSize))
      (hfresh : ∀ a, mem ≤ a → a < mem + LargeAlloc.nPages (n + elfmallocPageSize) * elfmallocSmallCutoff →
        w.heap.mem.mapped a = false) :
      Step w { w with heap := ⟨(LargeAlloc.alloc tg w.heap.mem mem n).2, w.heap.regions,
        .large (LargeAlloc.alloc tg w.heap.mem mem n).1 n :: w.heap.live⟩ }
  /-- `global::free` of a live block that no message names, freed now. -/
  | freeNow (w : World) (t : Nat) (b : Block) (hb : b ∈ w.heap.live) (hpend : b.ptr ∉ pending w.chan)
      (d : Dest) (m : Mem) (hf : free tg find (w.tls t) w.heap.mem b.ptr = .now d m) :
      Step w { w with heap := ⟨m, w.heap.regions, w.heap.live.erase b⟩ }
  /-- `global::free` of a live block that no message names, sent to the background thread; the
  block stays live until it frees it. -/
  | freeSent (w : World) (t : Nat) (b : Block) (hb : b ∈ w.heap.live) (hpend : b.ptr ∉ pending w.chan)
      (hf : free tg find (w.tls t) w.heap.mem b.ptr = .sent) :
      Step w { w with chan := w.chan ++ [(.thread t, .ptr b.ptr)] }
  /-- `global::aligned_realloc(item, n, a)` of a null `item` or of a live block no message names,
  handing back `q`: the handle's `ElfMalloc::realloc`, and the transient handles' messages. -/
  | realloc (w : World) (t item n a q : Nat) (h' : Heap) (hpend : item ∉ pending w.chan)
      (hr : Heap.ReallocStep tg (alignedRealloc tg find (w.tls t) w.heap.mem item n).1.alloc find w.heap item n a q h') :
      Step w { w with heap := h',
                      chan := w.chan ++ (alignedRealloc tg find (w.tls t) w.heap.mem item n).2.map (.transient t, ·) }
  /-- The background thread handles a message. -/
  | background (w w' : World) (h : Background tg find w w') : Step w w'
  /-- Modelled from the spec: a page source maps a fresh region and stamps its tag. -/
  | pages (w : World) (base : Nat) (v : AllocInfo)
      (hfresh : ∀ a, base ≤ a → a < base + elfmallocPageSize → w.heap.mem.mapped a = false) :
      Step w { w with heap := ⟨(w.heap.mem.carve base elfmallocPageSize).write base v,
        base :: w.heap.regions, w.heap.live⟩ }

/-- The process before any thread has called the allocator. -/
def init (m : Mem) : World := ⟨⟨m, [], []⟩, fun _ => .uninit, [], []⟩

/-- The worlds a run reaches. -/
inductive Reachable : World → Prop
  | init (m : Mem) : Reachable (init m)
  | step {w w' : World} : Reachable w → Step tg find w w' → Reachable w'

end

/-! ## The channel's bookkeeping -/

@[simp] theorem slotArrays_nil (t : Nat) : slotArrays t [] = 0 := rfl

@[simp] theorem slotArrays_append (t : Nat) (a b : List (Sender × Husk)) :
    slotArrays t (a ++ b) = slotArrays t a + slotArrays t b := List.countP_append _ _ _

@[simp] theorem slotArrays_cons (t : Nat) (m : Sender × Husk) (c : List (Sender × Husk)) :
    slotArrays t (m :: c) = slotArrays t c + if m.1 = .slot t ∧ m.2.isArray then 1 else 0 := by
  simp [slotArrays, List.countP_cons]

@[simp] theorem pending_nil : pending [] = [] := rfl

@[simp] theorem pending_append (a b : List (Sender × Husk)) :
    pending (a ++ b) = pending a ++ pending b := List.filterMap_append _ _ _

@[simp] theorem pending_cons (m : Sender × Husk) (c : List (Sender × Husk)) :
    pending (m :: c) = m.2.ptr?.toList ++ pending c := by
  cases h : m.2.ptr? <;> simp [pending, List.filterMap_cons, h]

/-- A handle's destructor sends its instance if it has not run before. -/
theorem drop_msgs (g : GlobalAllocator) (s : Sender) (t : Nat) :
    slotArrays t (g.drop.2.map (s, ·)) = (if s = .slot t ∧ g.dropped = false then 1 else 0) ∧
      pending (g.drop.2.map (s, ·)) = [] := by
  unfold GlobalAllocator.drop; cases g.dropped <;> simp [Husk.isArray, Husk.ptr?]

@[simp] theorem slotArrays_transient (t t' : Nat) (l : List Husk) :
    slotArrays t (l.map (.transient t', ·)) = 0 := by
  induction l with
  | nil => rfl
  | cons x l ih => simp [ih]

theorem withLocalOrClone_pending (tg : Target) (slot : Tls) (s : Sender) :
    pending ((withLocalOrClone tg slot).2.map (s, ·)) = [] := by
  unfold withLocalOrClone; split
  · rfl
  · exact (drop_msgs _ s 0).2

theorem alignedRealloc_pending (tg : Target) (find : Nat → Nat → Nat) (slot : Tls) (m : Mem) (item n : Nat)
    (s : Sender) : pending ((alignedRealloc tg find slot m item n).2.map (s, ·)) = [] := by
  simp only [alignedRealloc, List.map_append, pending_append, withLocalOrClone_pending, List.append_nil]
  split_ifs
  · rfl
  · exact withLocalOrClone_pending tg slot s

section Free
variable {tg : Target} {find : Nat → Nat → Nat} {slot : Tls} {m : Mem} {item : Nat}

theorem free_of_handle {g : GlobalAllocator} (h : slot.handle? = some g) :
    free tg find slot m item = .now (g.alloc.free tg find m item).1 (g.alloc.free tg find m item).2 := by
  simp [free, h]

theorem free_of_large (h : slot.handle? = none) (ht : getType m item = .Large) :
    free tg find slot m item = .now .large (LargeAlloc.free tg m item) := by
  simp [free, h, ht]

theorem free_of_slab (h : slot.handle? = none) (ht : getType m item ≠ .Large) :
    free tg find slot m item = .sent := by
  unfold free; rw [h]
  cases hty : getType m item <;> simp_all

/-- `global::free` sends an item to the background thread exactly when the thread has no handle
and the item's tag is not `Large`. -/
theorem free_eq_sent : free tg find slot m item = .sent ↔ slot.handle? = none ∧ getType m item ≠ .Large := by
  cases h : slot.handle? with
  | some g => simp [free, h]
  | none => cases ht : getType m item <;> simp [free, h, ht]

end Free

theorem handle?_eq_some {slot : Tls} {g : GlobalAllocator} : slot.handle? = some g ↔ slot = .live g := by
  cases slot <;> simp [Tls.handle?]

/-! ## The invariant of the process -/

/-- The instances thread `t`'s slot has sent to the background thread: waiting in the channel, or
dropped. -/
def World.slotSent (w : World) (t : Nat) : Nat := slotArrays t w.chan + w.retired.count (.slot t)

/-- A slot and the instances it has sent: none before the slot's destructor has run, one after; a
live slot holds a fresh `new_handle()`, a torn-down one the same handle dropped. -/
def SlotOk (tg : Target) : Tls → Nat → Prop
  | .uninit, n => n = 0
  | .live g, n => g = newHandle tg ∧ n = 0
  | .dead g, n => g = { newHandle tg with dropped := true } ∧ n = 1

theorem SlotOk.sent_eq {tg : Target} {slot : Tls} {n : Nat} (h : SlotOk tg slot n) :
    n = if slot.isDead then 1 else 0 := by
  cases slot <;> simp_all [SlotOk, Tls.isDead]

/-- A slot's destructor tears the slot down, and sends its instance only on its first run. -/
theorem SlotOk.destroy {tg : Target} {g : GlobalAllocator} {n : Nat}
    (h : SlotOk tg (.live g) n ∨ SlotOk tg (.dead g) n) :
    SlotOk tg (.dead g.drop.1) (n + if g.dropped = false then 1 else 0) := by
  rcases h with ⟨rfl, rfl⟩ | ⟨rfl, rfl⟩ <;> simp [SlotOk, GlobalAllocator.drop, newHandle]

/-- What every reachable world keeps: every slot is as `SlotOk` says, and the pointers waiting
in the channel are distinct live slab objects. -/
structure Inv (tg : Target) (w : World) : Prop where
  slot : ∀ t, SlotOk tg (w.tls t) (w.slotSent t)
  pendingNodup : (pending w.chan).Nodup
  pendingLive : ∀ p ∈ pending w.chan, ∃ k, Block.slab k p ∈ w.heap.live

section Run
variable {tg : Target} {find : Nat → Nat → Nat} {w w' : World}

theorem Inv.init (m : Mem) : Inv tg (init m) :=
  ⟨fun _ => rfl, List.nodup_nil, fun _ h => (List.not_mem_nil _ h).elim⟩

theorem Inv.handle (hi : Inv tg w) {t : Nat} {g : GlobalAllocator} (h : (w.tls t).handle? = some g) :
    g = newHandle tg := by
  have := hi.slot t
  rw [handle?_eq_some.1 h] at this
  exact this.1

theorem Inv.withLocalOrClone_fst (hi : Inv tg w) (t : Nat) : (withLocalOrClone tg (w.tls t)).1 = newHandle tg := by
  unfold withLocalOrClone; split
  · rename_i g hg; exact hi.handle hg
  · rfl

/-- A heap change that keeps every block a message names live keeps the invariant. -/
theorem Inv.with_heap (hi : Inv tg w) {hp : Heap} (hkeep : ∀ b ∈ w.heap.live, b.ptr ∈ pending w.chan → b ∈ hp.live) :
    Inv tg { w with heap := hp } :=
  ⟨hi.slot, hi.pendingNodup, fun p hp' => (hi.pendingLive p hp').imp fun _ hk => hkeep _ hk hp'⟩

theorem Inv.append_transient (hi : Inv tg w) {l : List Husk} {t : Nat} (hl : pending (l.map (.transient t, ·)) = []) :
    Inv tg { w with chan := w.chan ++ l.map (.transient t, ·) } :=
  ⟨fun t' => by simpa [World.slotSent] using hi.slot t', by simpa [hl] using hi.pendingNodup,
    by simpa [hl] using hi.pendingLive⟩

/-- The background thread keeps the invariant: it drops an instance, whose slot's count moves from
the channel to the dropped ones, or frees the live slab object the message names. -/
theorem Inv.background (hi : Inv tg w) (hs : Background tg find w w') : Inv tg w' := by
  cases hs with
  | dropArray s e rest hc =>
    refine ⟨fun t' => ?_, by simpa [hc, Husk.ptr?] using hi.pendingNodup,
      by simpa [hc, Husk.ptr?] using hi.pendingLive⟩
    have := hi.slot t'
    simp only [World.slotSent, hc, slotArrays_cons, List.count_append, List.count_singleton] at this ⊢
    convert this using 1
    simp [Husk.isArray]; omega
  | freePtr s b rest hc hb =>
    have hnd := hi.pendingNodup
    have hlive := hi.pendingLive
    rw [hc] at hnd hlive
    simp only [pending_cons, Husk.ptr?, Option.toList_some, List.singleton_append, List.nodup_cons] at hnd hlive
    refine ⟨fun t' => ?_, hnd.2, fun q hq => ?_⟩
    · simpa [World.slotSent, hc, Husk.isArray] using hi.slot t'
    · obtain ⟨k, hk⟩ := hlive q (List.mem_cons_of_mem _ hq)
      exact ⟨k, (List.mem_erase_of_ne (by rintro rfl; exact hnd.1 hq)).2 hk⟩
  | dirty s p rest hc =>
    refine ⟨fun t' => ?_, by simpa [hc, Husk.ptr?] using hi.pendingNodup,
      by simpa [hc, Husk.ptr?] using hi.pendingLive⟩
    simpa [World.slotSent, hc, Husk.isArray] using hi.slot t'

/-- The background thread can always handle the message at the head of the channel: it leaves
every slot alone, and a block it leaves live was live and is named by the rest of the channel only
if the channel named it before. -/
theorem Inv.background_head (hi : Inv tg w) (hh : Heap.Inv tg (ElfMalloc.new tg) find w.heap)
    {m : Sender × Husk} {rest : List (Sender × Husk)} (hc : w.chan = m :: rest) :
    ∃ w₁, Background tg find w w₁ ∧ w₁.chan = rest ∧ w₁.tls = w.tls ∧
      ∀ b ∈ w₁.heap.live, b ∈ w.heap.live ∧ (b.ptr ∉ pending rest → b.ptr ∉ pending w.chan) := by
  obtain ⟨s, msg⟩ := m
  cases msg with
  | array e => exact ⟨_, .dropArray w s e rest hc, rfl, rfl, fun b hb => ⟨hb, by simp [hc, Husk.ptr?]⟩⟩
  | ptr p =>
    obtain ⟨k, hk⟩ := hi.pendingLive p (by simp [hc, Husk.ptr?])
    refine ⟨_, .freePtr w s (.slab k p) rest hc hk, rfl, rfl, fun b hb₁ => ?_⟩
    have hb := List.mem_of_mem_erase hb₁
    have hne : b ≠ .slab k p := (hh.nodup.mem_erase_iff.1 hb₁).1
    refine ⟨hb, fun hb₂ => ?_⟩
    simp only [hc, pending_cons, Husk.ptr?, Option.toList_some, List.singleton_append, List.mem_cons, not_or]
    exact ⟨fun he => hne (hh.ptr_inj hb hk he), hb₂⟩
  | slag p => exact ⟨_, .dirty w s p rest hc, rfl, rfl, fun b hb => ⟨hb, by simp [hc, Husk.ptr?]⟩⟩

/-- One step keeps the invariant of the process, given the heap's. -/
theorem Inv.step (hi : Inv tg w) (hh : Heap.Inv tg (ElfMalloc.new tg) find w.heap)
    (hs : Step tg find w w') : Inv tg w' := by
  cases hs with
  | touch t ht =>
    refine ⟨fun t' => ?_, hi.pendingNodup, hi.pendingLive⟩
    dsimp only
    by_cases e : t = t'
    · subst e
      have := hi.slot t
      rw [ht] at this
      simp only [Function.update_same]
      exact ⟨rfl, this⟩
    · rw [Function.update_noteq (Ne.symm e)]; exact hi.slot t'
  | destroy t g hg =>
    have hpend : pending (g.drop.2.map (.slot t, ·)) = [] := (drop_msgs g (.slot t) t).2
    refine ⟨fun t' => ?_, by simpa [hpend] using hi.pendingNodup, by simpa [hpend] using hi.pendingLive⟩
    have hst : { w with tls := Function.update w.tls t (.dead g.drop.1),
                        chan := w.chan ++ g.drop.2.map (Sender.slot t, ·) }.slotSent t' =
        w.slotSent t' + if t = t' ∧ g.dropped = false then 1 else 0 := by
      simp only [World.slotSent, slotArrays_append, (drop_msgs g (.slot t) t').1, Sender.slot.injEq]; omega
    rw [hst]
    by_cases e : t = t'
    · subst e
      simpa using SlotOk.destroy (hg.imp (fun h => h ▸ hi.slot t) fun h => h ▸ hi.slot t)
    · simpa [Function.update_noteq (Ne.symm e), e] using hi.slot t'
  | transient t ht => exact hi.append_transient (withLocalOrClone_pending tg (w.tls t) _)
  | allocSlab => exact hi.with_heap fun _ hb _ => List.mem_cons_of_mem _ hb
  | allocLarge => exact hi.with_heap fun _ hb _ => List.mem_cons_of_mem _ hb
  | freeNow t b hb hpend => exact hi.with_heap fun c hc hp => (List.mem_erase_of_ne (by rintro rfl; exact hpend hp)).2 hc
  | freeSent t b hb hpend hf =>
    obtain ⟨k, hk⟩ := hh.slab_of_ne_large hb (free_eq_sent.1 hf).2
    refine ⟨fun t' => ?_, ?_, fun q hq => ?_⟩
    · simpa [World.slotSent, Husk.isArray] using hi.slot t'
    · simpa [Husk.ptr?, List.nodup_append] using ⟨hi.pendingNodup, hpend⟩
    · simp only [pending_append, pending_cons, Husk.ptr?, Option.toList_some, pending_nil,
        List.mem_append, List.mem_singleton, List.singleton_append, List.mem_cons, List.not_mem_nil,
        or_false] at hq
      rcases hq with hq | rfl
      · exact hi.pendingLive q hq
      · exact ⟨k, hk ▸ hb⟩
  | realloc t item n a q h' hpend hr =>
    exact (hi.with_heap fun b hb hp => hr.live_of_ne hb fun he => hpend (he ▸ hp)).append_transient
      (alignedRealloc_pending tg find (w.tls t) w.heap.mem item n _)
  | background _ hb => exact hi.background hb
  | pages => exact hi.with_heap fun _ hb _ => hb

variable (hw : tg.wordObjs = true) (hfit : tg.Fits (2 ^ 21))
include hw hfit

theorem newHandle_alloc : (newHandle tg).alloc = ElfMalloc.new tg := ElfMalloc.clone_new hw hfit

theorem Inv.alignedRealloc_alloc (hi : Inv tg w) (t : Nat) (m : Mem) (item n : Nat) :
    (alignedRealloc tg find (w.tls t) m item n).1.alloc = ElfMalloc.new tg := by
  rw [alignedRealloc, hi.withLocalOrClone_fst, newHandle_alloc hw hfit]

/-- What `global::free` of a live block does on any thread: frees it now as `new()` would, into its
own class or through `large_alloc` as its header says, or sends a slab object to the background
thread, whose handle frees it into its own class. -/
theorem Inv.free_cases (hi : Inv tg w) (hh : Heap.Inv tg (ElfMalloc.new tg) find w.heap) (t : Nat) {b : Block}
    (hb : b ∈ w.heap.live) :
    free tg find (w.tls t) w.heap.mem b.ptr = .now b.dest (b.freed tg w.heap.mem) ∨
      (free tg find (w.tls t) w.heap.mem b.ptr = .sent ∧
        (newHandle tg).alloc.free tg find w.heap.mem b.ptr = (b.dest, w.heap.mem)) := by
  have hfree := hh.free_eq ⟨12, 13, ElfMalloc.new_layout hfit⟩ hw
    (ElfMalloc.newInternal_wordObjs tg hw ElfMalloc.newSmallPages ElfMalloc.newLargePages 8 25) hb
  cases hg : (w.tls t).handle? with
  | some g => exact .inl (by rw [free_of_handle hg, hi.handle hg, newHandle_alloc hw hfit, hfree])
  | none =>
    by_cases ht : getType w.heap.mem b.ptr = .Large
    · obtain ⟨p, size, rfl⟩ := (hh.getType_eq_large hb).1 ht
      exact .inl (by rw [free_of_large hg ht, Block.ptr, (hh.large p size hb).free_eq]; rfl)
    · refine .inr ⟨free_of_slab hg ht, ?_⟩
      obtain ⟨k, hk⟩ := hh.slab_of_ne_large hb ht
      rw [newHandle_alloc hw hfit, hfree, hk]; rfl

omit hw hfit in
/-- The background thread's handle is `new_handle()`'s: a message it handles is a run of the heap
of that handle's instance, a free or nothing. -/
theorem Background.heap (hs : Background tg find w w') :
    Relation.ReflTransGen (Heap.Step tg (newHandle tg).alloc find) w.heap w'.heap := by
  cases hs with
  | dropArray | dirty => exact .refl
  | freePtr s b rest hc hb => exact .single (.free _ b hb)

/-- Every step of the process is a run of the heap of `new()`: a thread's handle, a transient one
and the background thread's are `new()`, a thread without a handle frees a live block with a
`Large` tag as `new()` would, and a `realloc` is an `alloc`, a `free`, both or neither. -/
theorem Step.heap (hi : Inv tg w) (hh : Heap.Inv tg (ElfMalloc.new tg) find w.heap)
    (hs : Step tg find w w') : Relation.ReflTransGen (Heap.Step tg (ElfMalloc.new tg) find) w.heap w'.heap := by
  have hL : ∃ ns nm, (ElfMalloc.new tg).allocs.Layout ns nm := ⟨12, 13, ElfMalloc.new_layout hfit⟩
  have hword := ElfMalloc.newInternal_wordObjs tg hw ElfMalloc.newSmallPages ElfMalloc.newLargePages 8 25
  cases hs with
  | touch | destroy | transient | freeSent => exact .refl
  | allocSlab t n p k hd hreg hnew hp =>
    unfold alloc at hd
    split at hd
    · rename_i g hg
      rw [hi.handle hg, newHandle_alloc hw hfit] at hd
      exact .single (.allocSlab _ n p k hd hreg hnew hp)
    · cases hd
  | allocLarge t n mem hd hmem hfit' hfresh => exact .single (.allocLarge _ n mem hmem hfit' hfresh)
  | freeNow t b hb hpend d m hf =>
    have hstep : Heap.Step tg (ElfMalloc.new tg) find w.heap _ := .free w.heap b hb
    rw [hh.free_eq hL hw hword hb] at hstep
    rcases hi.free_cases hw hfit hh t hb with h | ⟨h, -⟩ <;> rw [h] at hf <;> cases hf
    exact .single hstep
  | realloc t item n a q h' hpend hr =>
    rw [hi.alignedRealloc_alloc hw hfit] at hr
    exact hr.steps
  | background _ hb => exact newHandle_alloc hw hfit ▸ hb.heap
  | pages base v hfresh => exact .single (.pages _ base v hfresh)

omit hw hfit in
theorem getLayout_fst (hi : Inv tg w) (t : Nat) (m : Mem) (item : Nat) :
    (getLayout tg find (w.tls t) m item).1 = globalGetLayout tg find m item := by
  simp only [getLayout, hi.withLocalOrClone_fst, globalGetLayout, globalBlockPageSize]
  cases getType m item <;> rfl

variable (hos : tg.osPageSize ∣ elfmallocSmallCutoff)
include hos

/-- Every reachable world keeps the invariant, and its heap is a reachable heap of `new()`. -/
theorem reachable (hr : Reachable tg find w) :
    Inv tg w ∧ Heap.Reachable tg (ElfMalloc.new tg) find w.heap := by
  induction hr with
  | init m => exact ⟨Inv.init m, .init m⟩
  | step _ hs ih =>
    have hh := Heap.reachable_inv (ElfMalloc.new_wf hw hfit hos) ih.2
    exact ⟨ih.1.step hh hs, ih.2.star (Step.heap hw hfit ih.1 hh hs)⟩

/-! ## What every run of the process guarantees -/

omit hw hfit hos in
/-- On 64-bit Linux, a thread that never touched the allocator asks for one byte: with no handle,
`global::alloc` sends it to `large_alloc`. -/
theorem reachable_fallback_linux64 (find : Nat → Nat → Nat) :
    let r := LargeAlloc.alloc Target.linux64 ⟨fun _ => ⟨.Large, 0, 0⟩, fun _ => false⟩ (2 ^ 21) 1
    (Target.linux64.wordObjs = true ∧ Target.linux64.Fits (2 ^ 21) ∧
      Target.linux64.osPageSize ∣ elfmallocSmallCutoff) ∧
      Reachable Target.linux64 find ⟨⟨r.2, [], [.large r.1 1]⟩, fun _ => .uninit, [], []⟩ :=
  ⟨⟨rfl, .inr (by decide), by decide⟩,
    .step (.init _) (.allocLarge _ 0 1 _ rfl (by decide) (.inr (by decide)) fun _ _ _ => rfl)⟩

omit hw hfit hos in
/-- On 64-bit Linux, thread 0 touches the allocator and its slot's destructor runs twice. -/
theorem reachable_teardown_linux64 (find : Nat → Nat → Nat) :
    let w₀ := init ⟨fun _ => ⟨.Large, 0, 0⟩, fun _ => false⟩
    let g := newHandle Target.linux64
    let w₁ : World := { w₀ with tls := Function.update w₀.tls 0 (.live g) }
    let w₂ : World :=
      { w₁ with
        tls := Function.update w₁.tls 0 (.dead g.drop.1)
        chan := w₁.chan ++ g.drop.2.map (.slot 0, ·) }
    let w₃ : World :=
      { w₂ with
        tls := Function.update w₂.tls 0 (.dead g.drop.1.drop.1)
        chan := w₂.chan ++ g.drop.1.drop.2.map (.slot 0, ·) }
    (Target.linux64.wordObjs = true ∧ Target.linux64.Fits (2 ^ 21) ∧
      Target.linux64.osPageSize ∣ elfmallocSmallCutoff) ∧ Reachable Target.linux64 find w₃ :=
  ⟨⟨rfl, .inr (by decide), by decide⟩,
    .step (.step (.step (.init _) (.touch _ 0 rfl)) (.destroy _ 0 _ (.inl rfl))) (.destroy _ 0 _ (.inr rfl))⟩

/-- Every run of the process, any interleaving of the threads' calls, their slots' destructors
and the background thread, is a run of the heap of `new()`. -/
theorem heap_reachable (hr : Reachable tg find w) : Heap.Reachable tg (ElfMalloc.new tg) find w.heap :=
  (reachable hw hfit hos hr).2

omit hw hfit hos in
theorem heap_reachable_fallback :
    let r := LargeAlloc.alloc Target.linux64 ⟨fun _ => ⟨.Large, 0, 0⟩, fun _ => false⟩ (2 ^ 21) 1
    let w : World := ⟨⟨r.2, [], [.large r.1 1]⟩, fun _ => .uninit, [], []⟩
    (Target.linux64.wordObjs = true ∧ Target.linux64.Fits (2 ^ 21) ∧
      Target.linux64.osPageSize ∣ elfmallocSmallCutoff) ∧ Reachable Target.linux64 (fun _ _ => 0) w ∧
      Heap.Reachable Target.linux64 (ElfMalloc.new Target.linux64) (fun _ _ => 0) w.heap := by
  intro r w
  obtain ⟨⟨hw, hfit, hos⟩, hr⟩ := reachable_fallback_linux64 (fun _ _ => 0)
  exact ⟨⟨hw, hfit, hos⟩, hr, heap_reachable hw hfit hos hr⟩

/-- In every reachable world the instance thread `t`'s slot holds has been sent to the background
thread once if the slot's destructor has run, however often it ran, and never otherwise: it
waits in the channel or has been dropped. -/
theorem retired_once (hr : Reachable tg find w) (t : Nat) :
    slotArrays t w.chan + w.retired.count (.slot t) = if (w.tls t).isDead then 1 else 0 :=
  ((reachable hw hfit hos hr).1.slot t).sent_eq

omit hw hfit hos in
/-- Thread 0's destructor ran twice; its slot's instance was sent once. -/
theorem retired_once_twice :
    let w₀ := init ⟨fun _ => ⟨.Large, 0, 0⟩, fun _ => false⟩
    let g := newHandle Target.linux64
    let w₁ : World := { w₀ with tls := Function.update w₀.tls 0 (.live g) }
    let w₂ : World :=
      { w₁ with
        tls := Function.update w₁.tls 0 (.dead g.drop.1)
        chan := w₁.chan ++ g.drop.2.map (.slot 0, ·) }
    let w₃ : World :=
      { w₂ with
        tls := Function.update w₂.tls 0 (.dead g.drop.1.drop.1)
        chan := w₂.chan ++ g.drop.1.drop.2.map (.slot 0, ·) }
    (Target.linux64.wordObjs = true ∧ Target.linux64.Fits (2 ^ 21) ∧
      Target.linux64.osPageSize ∣ elfmallocSmallCutoff) ∧ Reachable Target.linux64 (fun _ _ => 0) w₃ ∧
      slotArrays 0 w₃.chan + w₃.retired.count (.slot 0) = if (w₃.tls 0).isDead then 1 else 0 := by
  intro w₀ g w₁ w₂ w₃
  obtain ⟨⟨hw, hfit, hos⟩, hr⟩ := reachable_teardown_linux64 (fun _ _ => 0)
  exact ⟨⟨hw, hfit, hos⟩, hr, retired_once hw hfit hos hr 0⟩

/-- Cross-thread free: in every reachable world, `global::free` of a live block on any thread
frees it now, into its own class or through `large_alloc` as its header says, or, on a thread
without a handle, sends a slab object to the background thread, whose handle frees it into its
own class. -/
theorem free_on_any_thread (hr : Reachable tg find w) (t : Nat) {b : Block} (hb : b ∈ w.heap.live) :
    free tg find (w.tls t) w.heap.mem b.ptr = .now b.dest (b.freed tg w.heap.mem) ∨
      (free tg find (w.tls t) w.heap.mem b.ptr = .sent ∧
        (newHandle tg).alloc.free tg find w.heap.mem b.ptr = (b.dest, w.heap.mem)) := by
  obtain ⟨hi, hhr⟩ := reachable hw hfit hos hr
  exact hi.free_cases hw hfit (Heap.reachable_inv (ElfMalloc.new_wf hw hfit hos) hhr) t hb

omit hw hfit hos in
/-- The thread with no handle frees its one-byte block through `large_alloc`. -/
theorem free_on_any_thread_fallback :
    let r := LargeAlloc.alloc Target.linux64 ⟨fun _ => ⟨.Large, 0, 0⟩, fun _ => false⟩ (2 ^ 21) 1
    let w : World := ⟨⟨r.2, [], [.large r.1 1]⟩, fun _ => .uninit, [], []⟩
    (Target.linux64.wordObjs = true ∧ Target.linux64.Fits (2 ^ 21) ∧
      Target.linux64.osPageSize ∣ elfmallocSmallCutoff) ∧ Reachable Target.linux64 (fun _ _ => 0) w ∧
      Block.large r.1 1 ∈ w.heap.live ∧
      (free Target.linux64 (fun _ _ => 0) (w.tls 0) w.heap.mem (Block.large r.1 1).ptr =
          .now (Block.large r.1 1).dest ((Block.large r.1 1).freed Target.linux64 w.heap.mem) ∨
        (free Target.linux64 (fun _ _ => 0) (w.tls 0) w.heap.mem (Block.large r.1 1).ptr = .sent ∧
          (newHandle Target.linux64).alloc.free Target.linux64 (fun _ _ => 0) w.heap.mem (Block.large r.1 1).ptr =
            ((Block.large r.1 1).dest, w.heap.mem))) := by
  intro r w
  obtain ⟨⟨hw, hfit, hos⟩, hr⟩ := reachable_fallback_linux64 (fun _ _ => 0)
  exact ⟨⟨hw, hfit, hos⟩, hr, List.mem_singleton_self _, free_on_any_thread hw hfit hos hr 0 (List.mem_singleton_self _)⟩

/-- In every reachable world `global::get_layout` of a live block, on any thread, reports the
block's layout. -/
theorem getLayout_live (hr : Reachable tg find w) (t : Nat) {b : Block} (hb : b ∈ w.heap.live) :
    (getLayout tg find (w.tls t) w.heap.mem b.ptr).1 = b.layout tg (ElfMalloc.new tg) := by
  obtain ⟨hi, hhr⟩ := reachable hw hfit hos hr
  have hwf := ElfMalloc.new_wf hw hfit hos
  rw [getLayout_fst hi, (Heap.reachable_inv hwf hhr).layout_eq hwf.layout hw hwf.wordObjs hb]

omit hw hfit hos in
/-- The thread with no handle reads its one-byte block's layout through a transient handle. -/
theorem getLayout_live_fallback :
    let r := LargeAlloc.alloc Target.linux64 ⟨fun _ => ⟨.Large, 0, 0⟩, fun _ => false⟩ (2 ^ 21) 1
    let w : World := ⟨⟨r.2, [], [.large r.1 1]⟩, fun _ => .uninit, [], []⟩
    (Target.linux64.wordObjs = true ∧ Target.linux64.Fits (2 ^ 21) ∧
      Target.linux64.osPageSize ∣ elfmallocSmallCutoff) ∧ Reachable Target.linux64 (fun _ _ => 0) w ∧
      Block.large r.1 1 ∈ w.heap.live ∧
      (getLayout Target.linux64 (fun _ _ => 0) (w.tls 0) w.heap.mem (Block.large r.1 1).ptr).1 =
        (Block.large r.1 1).layout Target.linux64 (ElfMalloc.new Target.linux64) := by
  intro r w
  obtain ⟨⟨hw, hfit, hos⟩, hr⟩ := reachable_fallback_linux64 (fun _ _ => 0)
  exact ⟨⟨hw, hfit, hos⟩, hr, List.mem_singleton_self _, getLayout_live hw hfit hos hr 0 (List.mem_singleton_self _)⟩

/-- In every reachable world, `global::aligned_realloc` on any thread, of a null `item` or a live
block, for a size from 1 to `max_size` and an alignment at most the word or at most the size,
hands back a live block, and `global::get_layout` on any thread reads back at least the size and
the alignment asked for. -/
theorem aligned_realloc_meets_request (hr : Reachable tg find w) {t item n a q : Nat} {h' : Heap}
    (hs : Heap.ReallocStep tg (alignedRealloc tg find (w.tls t) w.heap.mem item n).1.alloc find w.heap item n a q h')
    (h1 : 1 ≤ n) (hn : n ≤ (ElfMalloc.new tg).maxSize) (ha : a ≤ wordSize ∨ a ≤ n) (t' : Nat) :
    (∃ c ∈ h'.live, c.ptr = q) ∧
      ∃ sz al, (getLayout tg find (w.tls t') h'.mem q).1 = (sz, al) ∧ n ≤ sz ∧ a ≤ al := by
  obtain ⟨hi, hhr⟩ := reachable hw hfit hos hr
  have hwf := ElfMalloc.new_wf hw hfit hos
  rw [hi.alignedRealloc_alloc hw hfit] at hs
  obtain ⟨hlive, hlay⟩ := Heap.realloc_readBack hwf hhr hs (ElfMalloc.realloc_ne_freed (by omega))
  have hmax : Target.Fits tg (ElfMalloc.new tg).maxSize := by
    rw [ElfMalloc.new_maxSize hfit]; exact hfit.mono (by decide)
  refine ⟨hlive, ?_⟩
  rw [getLayout_fst hi]
  rcases ElfMalloc.reallocLayout_cases tg (ElfMalloc.new tg) find w.heap.mem item n a (by omega) with h | ⟨ha', hs', h⟩
  · exact ⟨_, _, Option.some_inj.1 (hlay.symm.trans h),
      ElfMalloc.allocLayout_covers (ElfMalloc.new_layout hfit) hw hwf.wordObjs hwf.maxSize hmax hn ha⟩
  · exact ⟨_, _, Option.some_inj.1 (hlay.symm.trans h), hs', ha'⟩

omit hw hfit hos in
/-- On the thread with no handle, reallocating its one-byte block to one byte aligned to 8 hands
the block back, and `get_layout` reads one byte aligned to the 4 KiB page. -/
theorem aligned_realloc_meets_request_fallback :
    let r := LargeAlloc.alloc Target.linux64 ⟨fun _ => ⟨.Large, 0, 0⟩, fun _ => false⟩ (2 ^ 21) 1
    let b : Block := .large r.1 1
    let w : World := ⟨⟨r.2, [], [b]⟩, fun _ => .uninit, [], []⟩
    (Target.linux64.wordObjs = true ∧ Target.linux64.Fits (2 ^ 21) ∧
      Target.linux64.osPageSize ∣ elfmallocSmallCutoff) ∧ Reachable Target.linux64 (fun _ _ => 0) w ∧
      Heap.ReallocStep Target.linux64 (alignedRealloc Target.linux64 (fun _ _ => 0) (w.tls 0) w.heap.mem b.ptr 1).1.alloc
        (fun _ _ => 0) w.heap b.ptr 1 8 b.ptr w.heap ∧
      1 ≤ 1 ∧ 1 ≤ (ElfMalloc.new Target.linux64).maxSize ∧ (8 ≤ wordSize ∨ 8 ≤ 1) ∧
      (∃ c ∈ w.heap.live, c.ptr = b.ptr) ∧
      ∃ sz al, (getLayout Target.linux64 (fun _ _ => 0) (w.tls 0) w.heap.mem b.ptr).1 = (sz, al) ∧ 1 ≤ sz ∧ 8 ≤ al := by
  intro r b w
  obtain ⟨⟨hw, hfit, hos⟩, hr⟩ := reachable_fallback_linux64 (fun _ _ => 0)
  have hm : ElfMalloc.realloc Target.linux64 (fun _ _ => 0) w.heap.mem b.ptr 1 8 = .same := by decide
  have hs : Heap.ReallocStep Target.linux64
      (alignedRealloc Target.linux64 (fun _ _ => 0) (w.tls 0) w.heap.mem b.ptr 1).1.alloc (fun _ _ => 0) w.heap
      b.ptr 1 8 b.ptr w.heap := .same b (List.mem_singleton_self _) rfl hm
  have hn : 1 ≤ (ElfMalloc.new Target.linux64).maxSize := by rw [ElfMalloc.new_maxSize hfit]; decide
  exact ⟨⟨hw, hfit, hos⟩, hr, hs, le_rfl, hn, .inl (by decide),
    aligned_realloc_meets_request hw hfit hos hr hs le_rfl hn (.inl (by decide)) 0⟩

/-- From every reachable world the background thread alone can empty the channel: every retired
instance is dropped, so each torn-down slot's instance has been dropped exactly once, and every
waiting pointer is freed and leaves the heap. -/
theorem drain (hr : Reachable tg find w) :
    ∃ w', Relation.ReflTransGen (Background tg find) w w' ∧ w'.chan = [] ∧ w'.tls = w.tls ∧
      (∀ t, w'.retired.count (.slot t) = if (w.tls t).isDead then 1 else 0) ∧
      ∀ b ∈ w'.heap.live, b ∈ w.heap.live ∧ b.ptr ∉ pending w.chan := by
  generalize hn : w.chan.length = n
  induction n generalizing w with
  | zero =>
    have hc : w.chan = [] := List.eq_nil_of_length_eq_zero hn
    refine ⟨w, .refl, hc, rfl, fun t => ?_, fun b hb => ⟨hb, by simp [hc]⟩⟩
    simpa [World.slotSent, hc] using ((reachable hw hfit hos hr).1.slot t).sent_eq
  | succ n ih =>
    obtain ⟨hi, hhr⟩ := reachable hw hfit hos hr
    obtain ⟨m, rest, hc⟩ := List.exists_cons_of_length_eq_add_one hn
    obtain ⟨w₁, hs, hc₁, htls, hlive₁⟩ :=
      hi.background_head (Heap.reachable_inv (ElfMalloc.new_wf hw hfit hos) hhr) hc
    obtain ⟨w', hw', hc', htls', hret, hlive⟩ := ih (hr.step (.background _ _ hs)) (by simpa [hc₁, hc] using hn)
    refine ⟨w', .head hs hw', hc', htls'.trans htls, fun t => htls ▸ hret t, fun b hb => ?_⟩
    obtain ⟨hb₁, hb₂⟩ := hlive b hb
    exact ⟨(hlive₁ b hb₁).1, (hlive₁ b hb₁).2 (hc₁ ▸ hb₂)⟩

omit hw hfit hos in
/-- After thread 0's slot was torn down twice, the background thread drops its instance. -/
theorem drain_teardown :
    let w₀ := init ⟨fun _ => ⟨.Large, 0, 0⟩, fun _ => false⟩
    let g := newHandle Target.linux64
    let w₁ : World := { w₀ with tls := Function.update w₀.tls 0 (.live g) }
    let w₂ : World :=
      { w₁ with
        tls := Function.update w₁.tls 0 (.dead g.drop.1)
        chan := w₁.chan ++ g.drop.2.map (.slot 0, ·) }
    let w₃ : World :=
      { w₂ with
        tls := Function.update w₂.tls 0 (.dead g.drop.1.drop.1)
        chan := w₂.chan ++ g.drop.1.drop.2.map (.slot 0, ·) }
    (Target.linux64.wordObjs = true ∧ Target.linux64.Fits (2 ^ 21) ∧
      Target.linux64.osPageSize ∣ elfmallocSmallCutoff) ∧ Reachable Target.linux64 (fun _ _ => 0) w₃ ∧
      ∃ w', Relation.ReflTransGen (Background Target.linux64 (fun _ _ => 0)) w₃ w' ∧ w'.chan = [] ∧
        w'.tls = w₃.tls ∧ (∀ t, w'.retired.count (.slot t) = if (w₃.tls t).isDead then 1 else 0) ∧
        ∀ b ∈ w'.heap.live, b ∈ w₃.heap.live ∧ b.ptr ∉ pending w₃.chan := by
  intro w₀ g w₁ w₂ w₃
  obtain ⟨⟨hw, hfit, hos⟩, hr⟩ := reachable_teardown_linux64 (fun _ _ => 0)
  exact ⟨⟨hw, hfit, hos⟩, hr, drain hw hfit hos hr⟩

end Run

end Global

end Elfmalloc
