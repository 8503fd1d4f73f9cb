import CratonVM.Gc.OldGen.BlockOffsetHooks
import CratonVM.Gc.OldGen.Relayout

/-!
An allocation fails only if no run of free bytes can hold it: what one pass of the search skips, a later one
looks at, and behind a failed pass the free blocks are the runs of free bytes.
-/
namespace CratonVM.Gc
open Spans Spans.Span OldGen List Option Bool

def NoneFits (base size align : Nat) (blocks : List FreeBlock) : Prop :=
  ∀ b ∈ blocks, ¬padding base align b+size ≤ b.size

section
variable {base size align : Nat}

theorem NoneFits.cons {b : FreeBlock} {blocks : List FreeBlock} (hb : ¬padding base align b+size ≤ b.size)
    (h : NoneFits base size align blocks) : NoneFits base size align (b::blocks) :=
  forall_mem_cons.mpr ⟨hb,h⟩

variable {mayDefer : Bool}

end

section
variable {g : OldGen} {live : List Live}

end

/-- A run of free bytes that no byte before or behind it prolongs. -/
structure MaximalRun (free : Finset Nat) (run : Span) : Prop where
  nonempty : 0 < run.size
  all : ∀ x, run.offset ≤ x → x < run.stop → x ∈ free
  before : run.offset = 0 ∨ run.offset-1 ∉ free
  behind : run.stop ∉ free

theorem MaximalRun.mem {blocks : List FreeBlock} {run : Span} (h : MaximalRun (covered blocks) run)
    (hapart : blocks.Pairwise Apart) (htouch : blocks.Pairwise fun a b => ¬Touching a b) : run ∈ blocks := by
  have hpos := h.nonempty
  obtain ⟨b,hb,h1,h2⟩ := mem_covered.mp (h.all run.offset le_rfl (by unfold Span.stop; omega))
  have hstart : b.offset = run.offset := by
    rcases h.before with h0 | hbefore
    · omega
    by_contra hne
    exact hbefore (mem_covered.mpr ⟨b,hb,by omega,by omega⟩)
  have hstop : b.stop = run.stop := by
    rcases Nat.lt_trichotomy b.stop run.stop with hlt | heq | hgt
    · -- The next byte is in a block that touches this one.
      obtain ⟨c,hc,h3,h4⟩ := mem_covered.mp (h.all b.stop (by omega) hlt)
      have hne : b ≠ c := by
        rintro rfl
        omega
      have : Std.Symm fun a b : Span => ¬Touching a b := ⟨fun _ _ hxy ht => hxy ht.symm⟩
      have hap := hapart.forall hb hc hne
      have hnt := htouch.forall hb hc hne
      unfold Apart Touching at *
      omega
    · exact heq
    · exact absurd (mem_covered.mpr ⟨b,hb,by unfold Span.stop at *; omega,hgt⟩) h.behind
  have : b = run := by
    unfold Span.stop at hstop
    obtain ⟨o1,s1⟩ := b
    simp only at hstart hstop
    obtain rfl := hstart
    rw [Nat.add_left_cancel hstop]
  exact this ▸ hb

namespace Heap
end Heap
end CratonVM.Gc
