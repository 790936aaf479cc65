/-!
# Widths in bytes

All offsets of this library count the bytes of a text in UTF-8. `Text.width` is the number of bytes
a list of characters takes, and `width_append` is how offsets add up.
-/

namespace OperandOrder.Text

/-- Number of bytes the characters take in UTF-8. -/
def width : List Char → Nat
  | [] => 0
  | c :: cs => c.utf8Size + width cs

@[simp] theorem width_nil : width [] = 0 := rfl

@[simp] theorem width_cons (c : Char) (cs : List Char) : width (c :: cs) = c.utf8Size + width cs :=
  rfl

@[simp] theorem width_append (a b : List Char) : width (a ++ b) = width a + width b := by
  induction a with
  | nil => simp
  | cons c a ih => simp only [List.cons_append, width_cons, ih, Nat.add_assoc]

end OperandOrder.Text
