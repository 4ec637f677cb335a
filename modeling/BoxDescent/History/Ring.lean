/-!
# Ring buffers

A buffer of fixed capacity that overwrites its oldest element once it is full.  The
elements lie in an array; `start` is the position of the oldest one.  `toList` is the
content, oldest first, and `get` reads one element by its age.
-/

namespace BoxDescent

/-- A buffer of at most `cap` elements. -/
structure Ring (β : Type) (cap : Nat) where
  slots : Array β
  start : Nat
  size_le : slots.size ≤ cap

namespace Ring

variable {β : Type} {cap : Nat}

def empty : Ring β cap where
  slots := #[]
  start := 0
  size_le := Nat.zero_le _

/-- Drops every element. -/
def clear (r : Ring β cap) : Ring β cap :=
  { r with slots := #[], start := 0, size_le := Nat.zero_le _ }

@[simp] theorem clear_eq_empty (r : Ring β cap) : r.clear = empty := rfl

def size (r : Ring β cap) : Nat := r.slots.size

@[simp] theorem size_empty : (empty : Ring β cap).size = 0 := rfl

def isFull (r : Ring β cap) : Bool := r.size == cap

/-- The content, oldest first. -/
def toList (r : Ring β cap) : List β :=
  r.slots.toList.drop r.start ++ r.slots.toList.take r.start

/-- Where the element with `i` older ones before it lies. -/
def position (r : Ring β cap) (i : Fin r.size) : Fin r.slots.size :=
  ⟨(i.val + r.start) % r.slots.size, Nat.mod_lt _ (Nat.zero_lt_of_lt i.isLt)⟩

/-- The element with `i` older ones before it. -/
def get (r : Ring β cap) (i : Fin r.size) : β := r.slots[r.position i]

/-- Adds an element; the oldest one makes room for it once the buffer is full. -/
def push (r : Ring β cap) (x : β) : Ring β cap :=
  if h : r.slots.size < cap then
    { slots := r.slots.push x
      start := r.start
      size_le := by rw [Array.size_push]; exact h }
  else
    { slots := r.slots.setIfInBounds r.start x
      start := (r.start + 1) % cap
      size_le := by rw [Array.size_setIfInBounds]; exact r.size_le }

theorem size_push (r : Ring β cap) (x : β) : (r.push x).size = min (r.size + 1) cap := by
  have h := r.size_le
  unfold push size
  split
  · rw [Array.size_push]
    omega
  · rw [Array.size_setIfInBounds]
    omega

/-- The position of an element among `cap` places. -/
def place (r : Ring β cap) (i : Fin r.size) : Fin cap := i.castLE r.size_le

end Ring

end BoxDescent
