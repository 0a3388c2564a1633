/-!
# Regions of source text

A region is a span of bytes in the UTF-8 form of one source text. Regions are kept as a
start and a length, so no region has its end before its start, and two of them merge into
the smallest region that covers both.
-/

namespace Lindenmayer

/-- A span of source text, counted in bytes from the start of the source. -/
structure Region where
  start : Nat
  length : Nat
  deriving DecidableEq, Repr, Inhabited

namespace Region

/-- The region of no bytes at the start of the source. -/
def origin : Region := ⟨0, 0⟩

/-- From `start` up to but not including `stop`; empty if `stop` comes first. -/
def between (start stop : Nat) : Region := ⟨start, stop - start⟩

def stop (r : Region) : Nat := r.start + r.length

def merge (r s : Region) : Region :=
  between (min r.start s.start) (max r.stop s.stop)

/-- A half-open interval, `[start..stop)`. -/
def text (r : Region) : String := s!"[{r.start}..{r.stop})"

@[simp] theorem between_start (a b : Nat) : (between a b).start = a := rfl

theorem between_stop {a b : Nat} (h : a ≤ b) : (between a b).stop = b := by
  simp only [between, stop]; omega

@[simp] theorem merge_start (r s : Region) : (r.merge s).start = min r.start s.start := rfl

theorem merge_stop (r s : Region) : (r.merge s).stop = max r.stop s.stop := by
  simp only [merge, between, stop]; omega

/-- What is merged with a region further on reaches to its end. -/
theorem merge_behind (start length gap length' : Nat) :
    (⟨start, length⟩ : Region).merge ⟨start + length + gap, length'⟩ =
      ⟨start, length + gap + length'⟩ := by
  simp only [merge, between, stop, mk.injEq]
  omega

theorem merge_comm (r s : Region) : r.merge s = s.merge r := by
  simp only [merge, Nat.min_comm, Nat.max_comm]

end Region

end Lindenmayer
