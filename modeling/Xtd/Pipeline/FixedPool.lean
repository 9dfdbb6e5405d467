import Xtd.Pipeline.Options

/-!
# The fixed pool resource

`fixed_pool_resource.h`, the memory resource a pipeline uses by default.  Addresses are numbered in the order in which
`operator new` hands them out, so an address obtained from it is never one that was obtained before.
-/

namespace Xtd

structure FixedPoolResource where
  availableBuffers : List Nat
  bufferSize : Nat
  maxPoolSize : Nat
  created : Nat

namespace FixedPoolResource

def new (bufferSize maxPoolSize : Nat) : FixedPoolResource := ⟨[], bufferSize, maxPoolSize, 0⟩

def doAllocate (r : FixedPoolResource) (oom : Bool) : Option (Nat × FixedPoolResource) :=
  match r.availableBuffers.getLast? with
  | none => if oom then none else some (r.created, { r with created := r.created + 1 })
  | some buffer => some (buffer, { r with availableBuffers := r.availableBuffers.dropLast })

/-- A buffer that finds the pool full is given back to `operator delete`. -/
def doDeallocate (r : FixedPoolResource) (pointer : Nat) : FixedPoolResource :=
  if r.availableBuffers.length < r.maxPoolSize then
    { r with availableBuffers := r.availableBuffers ++ [pointer] }
  else r

instance : MemoryResource FixedPoolResource Nat where
  allocate r _ oom := r.doAllocate oom
  deallocate r pointer _ := r.doDeallocate pointer
  allocate_isSome r _ := by
    unfold doAllocate
    split <;> rfl

/-- `make_allocator`: the resource of a pipeline with the given options. -/
def make (o : ValidatedOptions) : FixedPoolResource := .new o.bufferSize o.maxPooledSegments

end FixedPoolResource

end Xtd
