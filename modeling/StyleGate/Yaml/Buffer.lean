import StyleGate.Yaml.Source

/-!
# The buffer of a scalar

The text of a scalar is collected in a buffer of bytes. It doubles in front of a single character when
it is nearly full, but a run of blanks or line ends that comes as a whole has to fit into what is
left of it (`Buffer.append_eq_ok_iff`). So some scalars with long gaps cannot be read.
-/

namespace StyleGate.Yaml

/-- The text of a scalar so far. -/
structure Buffer where
  /-- The characters, the last one first. -/
  chars : List Char := []
  /-- The number of bytes that they take. -/
  size : Nat := 0
  capacity : Nat := 16
deriving DecidableEq, Repr

namespace Buffer

/-- The number of bytes that characters take. -/
def bytes (cs : List Char) : Nat := cs.foldr (fun c n => c.utf8Size + n) 0

/-- The buffer with another character. With five bytes left or fewer it is doubled first. -/
def push (b : Buffer) (c : Char) : Buffer :=
  { chars := c :: b.chars
    size := b.size + c.utf8Size
    capacity := if b.size + 5 < b.capacity then b.capacity else 2 * b.capacity }

/-- The buffer with a run of characters, the last one first, if it fits. -/
def append (b : Buffer) (run : List Char) : Except YamlFault Buffer :=
  if b.size + bytes run ≤ b.capacity then
    .ok { b with chars := run ++ b.chars, size := b.size + bytes run }
  else .error .overlongRun

/-- The text in the buffer. -/
def text (b : Buffer) : String := String.ofList b.chars.reverse

/-- A run can be appended if and only if it fits. -/
theorem append_eq_ok_iff (b : Buffer) (run : List Char) :
    (∃ b', b.append run = .ok b') ↔ b.size + bytes run ≤ b.capacity := by
  unfold append
  split <;> simp_all

end Buffer

end StyleGate.Yaml
