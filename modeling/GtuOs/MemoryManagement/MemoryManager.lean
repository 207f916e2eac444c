import GtuOs.Lib.Memory

/-!
# The memory manager

`memorymanagement.h` and the `MemoryManager` class of `memorymanagement.cpp`. The
chunk headers live in the memory managed; addresses and sizes are 32-bit, as
`size_t`. A flag records whether any sum or difference of a run has wrapped.
-/

namespace GtuOs

/-- The header of a chunk. -/
structure MemoryChunk where
  next : UInt32
  prev : UInt32
  allocated : Bool
  size : UInt32
  deriving DecidableEq

namespace MemoryChunk

/-- `sizeof(MemoryChunk)`: two pointers, a padded `bool`, and the size. -/
def sizeof : UInt32 := 16

/-- The header at `a`. -/
def load (m : Memory) (a : UInt32) : MemoryChunk where
  next := m.load32 a.toNat
  prev := m.load32 (a.toNat + 4)
  allocated := m (a.toNat + 8) != 0
  size := m.load32 (a.toNat + 12)

/-- The assignment `chunk->next = v`. -/
def setNext (m : Memory) (a v : UInt32) : Memory := m.store32 a.toNat v

/-- The assignment `chunk->prev = v`. -/
def setPrev (m : Memory) (a v : UInt32) : Memory := m.store32 (a.toNat + 4) v

/-- The assignment `chunk->allocated = b`. -/
def setAllocated (m : Memory) (a : UInt32) (b : Bool) : Memory :=
  m.store (a.toNat + 8) 1 fun _ => if b then 1 else 0

/-- The assignment `chunk->size = v`. -/
def setSize (m : Memory) (a v : UInt32) : Memory := m.store32 (a.toNat + 12) v

end MemoryChunk

/-- Whether the sum of two words wraps. -/
def carry (x y : UInt32) : Bool := 2 ^ 32 ≤ x.toNat + y.toNat

/-- Whether the difference of two words wraps. -/
def borrow (x y : UInt32) : Bool := x < y

/-- The memory and the field `first`, and the flag. -/
structure MemoryManager where
  mem : Memory
  first : UInt32
  wrapped : Bool

namespace MemoryManager

open MemoryChunk (sizeof)

/-- The header of the chunk `c`. -/
def chunk (s : MemoryManager) (c : UInt32) : MemoryChunk := .load s.mem c

/-- Records computations, some of which may have wrapped. -/
def computes (s : MemoryManager) (wraps : Bool) : MemoryManager :=
  { s with wrapped := s.wrapped || wraps }

def setNext (s : MemoryManager) (c v : UInt32) : MemoryManager :=
  { s with mem := MemoryChunk.setNext s.mem c v }

def setPrev (s : MemoryManager) (c v : UInt32) : MemoryManager :=
  { s with mem := MemoryChunk.setPrev s.mem c v }

def setAllocated (s : MemoryManager) (c : UInt32) (b : Bool) : MemoryManager :=
  { s with mem := MemoryChunk.setAllocated s.mem c b }

def setSize (s : MemoryManager) (c v : UInt32) : MemoryManager :=
  { s with mem := MemoryChunk.setSize s.mem c v }

/-- The constructor. -/
def construct (mem : Memory) (start size : UInt32) : MemoryManager :=
  let s : MemoryManager := ⟨mem, start, false⟩
  if size < sizeof then { s with first := 0 }
  else
    let s := s.setAllocated start false
    let s := s.setPrev start 0
    let s := s.setNext start 0
    (s.computes (borrow size sizeof)).setSize start (size - sizeof)

/-- The loop of `malloc` from `chunk` on: the first free chunk of more than `size` bytes,
    or null. -/
def search (s : MemoryManager) (size chunk : UInt32) : ℕ → Option UInt32
  | 0 => none
  | fuel + 1 =>
    if chunk = 0 then some 0
    else if (s.chunk chunk).size > size ∧ ¬(s.chunk chunk).allocated then some chunk
    else s.search size (s.chunk chunk).next fuel

/-- The chunk after `c`, if any, gets the previous chunk `v`. -/
def linkBack (s : MemoryManager) (c v : UInt32) : MemoryManager :=
  if (s.chunk c).next ≠ 0 then s.setPrev (s.chunk c).next v else s

/-- What `malloc` does when a chunk is large enough for a header and a byte more: the
    rest of it becomes a chunk. -/
def split (s : MemoryManager) (result size : UInt32) : MemoryManager :=
  let s := s.computes (carry result sizeof || carry (result + sizeof) size)
  let temp := result + sizeof + size
  let s := s.setAllocated temp false
  let s := s.computes (borrow (s.chunk result).size size ||
    borrow ((s.chunk result).size - size) sizeof)
  let s := s.setSize temp ((s.chunk result).size - size - sizeof)
  let s := s.setPrev temp result
  let s := s.setNext temp (s.chunk result).next
  let s := s.linkBack temp temp
  let s := s.setSize result size
  s.setNext result temp

/-- `malloc`. -/
def malloc (s : MemoryManager) (size : UInt32) (fuel : ℕ) : Option (MemoryManager × UInt32) :=
  (s.search size s.first fuel).map fun result =>
    if result = 0 then (s, 0)
    else
      let s := s.computes (carry size sizeof || carry (size + sizeof) 1)
      let s := if (s.chunk result).size ≥ size + sizeof + 1 then s.split result size else s
      let s := s.setAllocated result true
      (s.computes (carry result sizeof), result + sizeof)

/-- The merge of `free` with the previous chunk, that of the chunk freed. -/
def mergePrev (s : MemoryManager) (chunk : UInt32) : MemoryManager :=
  let s := s.setNext (s.chunk chunk).prev (s.chunk chunk).next
  let s := s.computes (carry (s.chunk chunk).size sizeof ||
    carry (s.chunk (s.chunk chunk).prev).size ((s.chunk chunk).size + sizeof))
  let s := s.setSize (s.chunk chunk).prev
    ((s.chunk (s.chunk chunk).prev).size + ((s.chunk chunk).size + sizeof))
  s.linkBack chunk (s.chunk chunk).prev

/-- The merge of `free` with the next chunk. -/
def mergeNext (s : MemoryManager) (chunk : UInt32) : MemoryManager :=
  let s := s.computes (carry (s.chunk (s.chunk chunk).next).size sizeof ||
    carry (s.chunk chunk).size ((s.chunk (s.chunk chunk).next).size + sizeof))
  let s := s.setSize chunk
    ((s.chunk chunk).size + ((s.chunk (s.chunk chunk).next).size + sizeof))
  let s := s.setNext chunk (s.chunk (s.chunk chunk).next).next
  s.linkBack chunk chunk

/-- `free`. -/
def free (s : MemoryManager) (ptr : UInt32) : MemoryManager :=
  let s := s.computes (borrow ptr sizeof)
  let chunk := ptr - sizeof
  let s := s.setAllocated chunk false
  let (s, chunk) :=
    if (s.chunk chunk).prev ≠ 0 ∧ ¬(s.chunk (s.chunk chunk).prev).allocated then
      let s := s.mergePrev chunk
      (s, (s.chunk chunk).prev)
    else (s, chunk)
  if (s.chunk chunk).next ≠ 0 ∧ ¬(s.chunk (s.chunk chunk).next).allocated then s.mergeNext chunk
  else s

end MemoryManager

end GtuOs
