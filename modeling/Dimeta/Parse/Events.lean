import Dimeta.DI.Visitor

/-!
# Parse events

`DIEventVisitor` turns the visit of a type graph into events. It has one record of metadata, which
the nodes on the way down fill in and which the node at the end of a chain reports and clears;
records put it aside on a stack while their elements are visited.

`undefined` is set where the build without assertions would follow a null pointer or take the back
of an empty container.
-/

set_option autoImplicit false

namespace Dimeta

variable {ι π : Type*}

structure ArrayData where
  arraySizeBits : UInt64
  arrayOfPointer : UInt64 := 0
  subranges : List UInt64 := []
  isVector : Bool
  deriving DecidableEq

/-- The entries of `dwarf_tags`: a tag, or the custom tag for vectors. -/
inductive CollectedTag where
  | dwarf (tag : DwTag)
  | kVector
  deriving DecidableEq

structure MetaData (ι : Type*) where
  type : Option (DINode ι) := none
  memberOffset : UInt64 := 0
  memberSize : UInt64 := 0
  arrays : List ArrayData := []
  memberName : String := ""
  typedefNames : List String := []
  dwarfTags : List CollectedTag := []
  isMember : Bool := false
  isMemberStatic : Bool := false
  isBaseClass : Bool := false
  hasVtable : Bool := false
  isRecurring : Bool := false
  isVoidPtr : Bool := false
  isVector : Bool := false
  isForwardDecl : Bool := false
  derivedSize : UInt64 := 0
  deriving DecidableEq

structure EnumMeta where
  enumBase : Option DIBasicType := none
  isEnum : Bool := false
  deriving DecidableEq

/-- The receiver of the events, with state `π`. -/
structure DIParseEvents (ι π : Type*) where
  makeFundamental : MetaData ι → π → π
  makeFunctionPtr : MetaData ι → π → π
  makeVoidPtr : MetaData ι → π → π
  makeString : MetaData ι → π → π
  makeVtable : MetaData ι → π → π
  makeEnumMember : MetaData ι → π → π
  makeComposite : MetaData ι → π → π
  finalizeComposite : MetaData ι → π → π

/-- The state of `DIEventVisitor`; the top of the stack is its head. -/
structure DIEventState (ι π : Type*) where
  current : MetaData ι := {}
  stack : List (MetaData ι) := []
  enumData : EnumMeta := {}
  events : π
  undefined : Bool := false

/-- Change the last element of a list. -/
def modifyBack {α : Type*} (f : α → α) : List α → List α
  | []      => []
  | [a]     => [f a]
  | a :: as => a :: modifyBack f as

namespace MetaData

def makeMember (d : DIDerivedType ι) (current : MetaData ι) : MetaData ι :=
  { current with
    memberName := d.name
    isMember := true
    memberOffset := d.offsetInBits / 8
    memberSize := d.sizeInBits / 8
    isMemberStatic := d.isStaticMember }

/-- The metadata after a derived type, before any event. -/
def visitDerived (d : DIDerivedType ι) (current : MetaData ι) : MetaData ι :=
  let current := { current with derivedSize := d.sizeInBits / 8 }
  match d.tag with
  | .member      => current.makeMember d
  | .var         => if d.isStaticMember then current.makeMember d else current
  | .typedef     => { current with typedefNames := current.typedefNames ++ [d.name] }
  | .inheritance => { current with isBaseClass := true, memberOffset := d.offsetInBits / 8 }
  | .pointerType =>
    { current with
      dwarfTags := current.dwarfTags ++ [.dwarf .pointerType]
      arrays := modifyBack (fun a => { a with arrayOfPointer := d.sizeInBits }) current.arrays }
  | tag          => { current with dwarfTags := current.dwarfTags ++ [.dwarf tag] }

def visitArray (c : DICompositeType ι) (current : MetaData ι) : MetaData ι :=
  { current with
    isVector := c.isVector
    dwarfTags := current.dwarfTags ++ [if c.isVector then .kVector else .dwarf .arrayType] ++
      if c.associated then [.dwarf .pointerType] else []
    arrays := current.arrays ++ [{ arraySizeBits := c.sizeInBits, isVector := c.isVector }] }

def visitRecord [DecidableEq ι] (n : ι) (c : DICompositeType ι) (current : MetaData ι) :
    MetaData ι :=
  { current with
    type := some (.compositeType c)
    hasVtable := c.vtableHolder == some n
    isForwardDecl := c.isForwardDecl }

def visitEnumerator (name : String) (base : DIBasicType) (current : MetaData ι) : MetaData ι :=
  { current with
    memberName := name
    memberOffset := 0
    memberSize := base.sizeInBits / 8
    type := some (.basicType base)
    isMember := true }

/-- A negative count stands for an array of unknown size. -/
def visitSubrange (count : ℤ) (current : MetaData ι) : MetaData ι :=
  let range := if 0 ≤ count then UInt64.ofNat (min count.toNat (UInt64.size - 1)) else 0
  { current with
    arrays := modifyBack (fun a => { a with subranges := a.subranges ++ [range] }) current.arrays }

end MetaData

namespace DIEventVisitor

variable (E : DIParseEvents ι π)

def visitBasicType (b : DIBasicType) (s : DIEventState ι π) : DIEventState ι π :=
  let s := { s with current.type := some (.basicType b) }
  if s.enumData.isEnum then { s with enumData.enumBase := some b }
  else { s with events := E.makeFundamental s.current s.events }

def visitStringType (t : DIStringType) (s : DIEventState ι π) : DIEventState ι π :=
  let s := { s with current.type := some (.stringType t) }
  { s with events := E.makeString s.current s.events }

def clearCurrent (s : DIEventState ι π) : DIEventState ι π := { s with current := {} }

def isVoidPointer (d : DIDerivedType ι) : Bool := d.tag == .pointerType && d.baseType.isNone

def isVtablePtr (d : DIDerivedType ι) : Bool := d.name == "__vtbl_ptr_type"

def visitDerivedType (d : DIDerivedType ι) (s : DIEventState ι π) : DIEventState ι π :=
  let s := { s with current := s.current.visitDerived d }
  if isVoidPointer d then
    let s := { s with current.type := some (.derivedType d), current.isVoidPtr := true }
    clearCurrent { s with events := E.makeVoidPtr s.current s.events }
  else if isVtablePtr d then
    let s := { s with current.type := some (.derivedType d) }
    clearCurrent { s with events := E.makeVtable s.current s.events }
  else s

def visitNode (node : DINode ι) (s : DIEventState ι π) : DIEventState ι π :=
  match node with
  | .enumerator name =>
    match s.enumData.enumBase with
    | none      => { s with undefined := true }
    | some base =>
      let s := { s with current := s.current.visitEnumerator name base }
      { s with events := E.makeEnumMember s.current s.events }
  | .subrange (some count) =>
    if s.current.arrays = [] then { s with undefined := true }
    else { s with current := s.current.visitSubrange count }
  | .subroutineType =>
    let s := { s with current.type := some .subroutineType }
    { s with events := E.makeFunctionPtr s.current s.events }
  | _ => s

def leaveNode (node : DINode ι) (s : DIEventState ι π) : DIEventState ι π :=
  match node with
  | .subroutineType => clearCurrent s
  | _               => s

variable [DecidableEq ι]

def visitCompositeType (n : ι) (c : DICompositeType ι) (s : DIEventState ι π) :
    DIEventState ι π :=
  if c.tag = .arrayType then { s with current := s.current.visitArray c }
  else
    let s := { s with current := s.current.visitRecord n c,
                      enumData.isEnum := decide (c.tag = DwTag.enumerationType) }
    let s := { s with events := E.makeComposite s.current s.events }
    -- what was collected so far is about this composite: it is needed again on leaving it
    clearCurrent { s with stack := s.current :: s.stack }

def leaveCompositeType (c : DICompositeType ι) (s : DIEventState ι π) : DIEventState ι π :=
  if c.tag = .arrayType then s
  else match s.stack with
    | []         => { s with undefined := true }
    | m :: stack => { s with stack, events := E.finalizeComposite m s.events, enumData := {} }

/-- The callbacks, none of which cuts the traversal short. -/
def visitor : DINodeVisitor ι (DIEventState ι π) where
  visitBasicType _ b s := (true, visitBasicType E b s)
  leaveBasicType _ _ s := clearCurrent s
  visitStringType _ t s := (true, visitStringType E t s)
  leaveStringType _ _ s := clearCurrent s
  visitDerivedType _ d s := (true, visitDerivedType E d s)
  visitNode _ node s := (true, visitNode E node s)
  leaveNode _ node s := leaveNode node s
  visitCompositeType n c s := (true, visitCompositeType E n c s)
  leaveCompositeType _ c s := leaveCompositeType E c s
  visitRecurringCompositeType n c s :=
    (true, visitCompositeType E n c { s with current.isRecurring := true })
  leaveRecurringCompositeType _ c s := leaveCompositeType E c s

end DIEventVisitor

/-- `diparser::visit_node` -/
def diparserVisitNode [DecidableEq ι] (E : DIParseEvents ι π) (G : DIGraph ι) (fuel : ℕ) (n : ι)
    (events : π) : Option (DIEventState ι π) :=
  ((DIEventVisitor.visitor E).traverseNode G fuel n { events }).map fun r => r.2.callback

end Dimeta
