import Mathlib.Data.List.Basic
import Mathlib.Data.Nat.Notation
import Mathlib.Tactic

/-!
# Allocation functions

The functions that count as allocations, by name, with bit flags for their kind.
-/

set_option autoImplicit false

namespace Dimeta

abbrev MemOpKind := UInt16

namespace MemOpKind

def kNewLike : MemOpKind := (1 : UInt16) <<< 0
def kMallocLike : MemOpKind := (1 : UInt16) <<< 1
def kAlignedAllocLike : MemOpKind := (1 : UInt16) <<< 2
def kCallocLike : MemOpKind := (1 : UInt16) <<< 3
def kReallocLike : MemOpKind := (1 : UInt16) <<< 4
def kNewCppLike : MemOpKind := (1 : UInt16) <<< 5 ||| kNewLike
def kCudaMallocLike : MemOpKind := (1 : UInt16) <<< 6
def kFortranMallocLike : MemOpKind := (1 : UInt16) <<< 7
def kMpiMallocLike : MemOpKind := (1 : UInt16) <<< 8

/-- `detail::has_value`: some flag of `value` is set. -/
def hasValue (flags value : MemOpKind) : Bool := flags &&& value != 0

end MemOpKind

namespace MemOps

open MemOpKind

def allocMap : List (String × MemOpKind) :=
  [("malloc", kMallocLike),
    ("calloc", kCallocLike),
    ("realloc", kReallocLike),
    ("aligned_alloc", kAlignedAllocLike),
    ("_Znwm", kNewLike),
    ("_Znwj", kNewLike),
    ("_Znam", kNewLike),
    ("_Znaj", kNewLike),
    ("_ZnwjRKSt9nothrow_t", kNewCppLike),
    ("_ZnwmRKSt9nothrow_t", kNewCppLike),
    ("_ZnajRKSt9nothrow_t", kNewCppLike),
    ("_ZnamRKSt9nothrow_t", kNewCppLike),
    ("_ZnwjSt11align_val_t", kNewLike),
    ("_ZnwjSt11align_val_tRKSt9nothrow_t", kNewCppLike),
    ("_ZnwmSt11align_val_t", kNewCppLike),
    ("_ZnwmSt11align_val_tRKSt9nothrow_t", kNewCppLike),
    ("_ZnajSt11align_val_t", kNewLike),
    ("_ZnajSt11align_val_tRKSt9nothrow_t", kNewCppLike),
    ("_ZnamSt11align_val_t", kNewLike),
    ("_ZnamSt11align_val_tRKSt9nothrow_t", kNewCppLike),
    ("cudaMalloc", kCudaMallocLike),
    ("cudaHostAlloc", kCudaMallocLike),
    ("cudaMallocHost", kCudaMallocLike),
    ("cudaMallocPitch", kCudaMallocLike),
    ("cudaMallocArray", kCudaMallocLike),
    ("cudaMalloc3D", kCudaMallocLike),
    ("cudaMalloc3DArray", kCudaMallocLike),
    ("cudaMallocManaged", kCudaMallocLike),
    ("cudaMallocFromPoolAsync", kCudaMallocLike),
    ("cudaMallocAsync", kCudaMallocLike),
    ("hipMalloc", kCudaMallocLike),
    ("hipHostMalloc", kCudaMallocLike),
    ("hipMallocHost", kCudaMallocLike),
    ("hipMallocPitch", kCudaMallocLike),
    ("hipMallocArray", kCudaMallocLike),
    ("hipMalloc3D", kCudaMallocLike),
    ("hipMalloc3DArray", kCudaMallocLike),
    ("hipMallocManaged", kCudaMallocLike),
    ("hipMallocFromPoolAsync", kCudaMallocLike),
    ("hipMallocAsync", kCudaMallocLike),
    ("hipExtMallocWithFlags", kCudaMallocLike),
    ("_FortranAAllocatableAllocate", kFortranMallocLike),
    ("_FortranAPointerAllocate", kFortranMallocLike),
    ("MPI_Alloc_mem", kMpiMallocLike)]

def allocKind (function : String) : Option MemOpKind := allocMap.lookup function

def isAlloc (function : String) : Bool := (allocKind function).isSome

/-- The function allocates, and one of these flags is set for it. -/
def isKind (value : MemOpKind) (function : String) : Bool :=
  (allocKind function).any (·.hasValue value)

/-- Both flags of `kNewCppLike` are asked for, so any `new` counts. -/
def isNewLike : String → Bool := isKind kNewCppLike

def isCudaLike : String → Bool := isKind kCudaMallocLike

def isFortranLike : String → Bool := isKind kFortranMallocLike

def isMpiLike : String → Bool := isKind kMpiMallocLike

end MemOps

end Dimeta
