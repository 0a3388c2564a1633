/-!
# Lengths and cuts in bytes

Offsets into source text count the bytes of its UTF-8 form, while the text itself is worked
on by character. These are the few functions that go from one to the other.
-/

namespace Lindenmayer.Text

def byteLength : List Char → Nat
  | [] => 0
  | c :: cs => c.utf8Size + byteLength cs

/-- `cs` cut in two after `n` bytes. -/
def cutBytes (n : Nat) : List Char → List Char × List Char
  | [] => ([], [])
  | c :: cs =>
    if n = 0 then ([], c :: cs)
    else
      let (front, back) := cutBytes (n - c.utf8Size) cs
      (c :: front, back)

/-- The part of `cs` from byte `start` up to byte `stop`. -/
def sliceBytes (start stop : Nat) (cs : List Char) : List Char :=
  (cutBytes (stop - start) (cutBytes start cs).2).1

@[simp] theorem byteLength_nil : byteLength [] = 0 := rfl

@[simp] theorem byteLength_cons (c : Char) (cs : List Char) :
    byteLength (c :: cs) = c.utf8Size + byteLength cs := rfl

@[simp] theorem byteLength_append (s t : List Char) :
    byteLength (s ++ t) = byteLength s + byteLength t := by
  induction s with
  | nil => simp
  | cons c s ih => simp [ih, Nat.add_assoc]

theorem cutBytes_append (n : Nat) (cs : List Char) :
    (cutBytes n cs).1 ++ (cutBytes n cs).2 = cs := by
  induction cs generalizing n with
  | nil => rfl
  | cons c cs ih =>
    simp only [cutBytes]
    split
    · rfl
    · simp [ih]

/-- A cut between two texts finds the place between them. -/
theorem cutBytes_byteLength (s t : List Char) : cutBytes (byteLength s) (s ++ t) = (s, t) := by
  induction s with
  | nil => cases t <;> simp [cutBytes]
  | cons c s ih =>
    have hpos : c.utf8Size + byteLength s ≠ 0 := by
      have := c.utf8Size_pos
      omega
    simp only [byteLength_cons, List.cons_append, cutBytes, hpos, if_false,
      Nat.add_sub_cancel_left, ih]

end Lindenmayer.Text
