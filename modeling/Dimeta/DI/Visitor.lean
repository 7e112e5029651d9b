import Dimeta.DI.Node
import Mathlib.Data.Finset.Basic

/-!
# The debug-info visitor

`DINodeVisitor` walks the type graph below a node and calls back on the way in and on the way out.
A non-array composite is entered only if it is not open already; an open one is visited as a
recurring composite instead.

The recursion of the source has no bound of its own, so the traversal takes fuel. What it visits
does not depend on the callbacks, as long as they do not cut it short: `Walk` is the tree of the
visit, and the traversal is a structural recursion over it.
-/

set_option autoImplicit false

namespace Dimeta

variable {ι σ : Type*}

/-- The callbacks of a visitor with state `σ`; each defaults to going on. -/
structure DINodeVisitor (ι σ : Type*) where
  visitType : ι → σ → Bool × σ := fun _ s => (true, s)
  visitNode : ι → DINode ι → σ → Bool × σ := fun _ _ s => (true, s)
  leaveNode : ι → DINode ι → σ → σ := fun _ _ s => s
  visitVariable : ι → σ → Bool × σ := fun _ s => (true, s)
  leaveVariable : ι → σ → σ := fun _ s => s
  visitBasicType : ι → DIBasicType → σ → Bool × σ := fun _ _ s => (true, s)
  leaveBasicType : ι → DIBasicType → σ → σ := fun _ _ s => s
  visitStringType : ι → DIStringType → σ → Bool × σ := fun _ _ s => (true, s)
  leaveStringType : ι → DIStringType → σ → σ := fun _ _ s => s
  visitDerivedType : ι → DIDerivedType ι → σ → Bool × σ := fun _ _ s => (true, s)
  leaveDerivedType : ι → DIDerivedType ι → σ → σ := fun _ _ s => s
  visitCompositeType : ι → DICompositeType ι → σ → Bool × σ := fun _ _ s => (true, s)
  leaveCompositeType : ι → DICompositeType ι → σ → σ := fun _ _ s => s
  visitRecurringCompositeType : ι → DICompositeType ι → σ → Bool × σ := fun _ _ s => (true, s)
  leaveRecurringCompositeType : ι → DICompositeType ι → σ → σ := fun _ _ s => s

/-- Where a traversal is: the composites that are open, and the state of the callbacks. -/
structure Traversal (ι σ : Type*) where
  visited : Finset ι
  callback : σ

namespace DINodeVisitor

variable [DecidableEq ι] (V : DINodeVisitor ι σ)

/-! ### The traversal -/

def traverseNodeOnly (n : ι) (node : DINode ι) (t : Traversal ι σ) : Bool × Traversal ι σ :=
  let (ret, st) := V.visitNode n node t.callback
  (ret, { t with callback := V.leaveNode n node st })

def traverseBasicType (n : ι) (b : DIBasicType) (t : Traversal ι σ) : Bool × Traversal ι σ :=
  let (ret, st) := V.visitBasicType n b t.callback
  (ret, { t with callback := V.leaveBasicType n b st })

def traverseStringType (n : ι) (s : DIStringType) (t : Traversal ι σ) : Bool × Traversal ι σ :=
  let (ret, st) := V.visitStringType n s t.callback
  (ret, { t with callback := V.leaveStringType n s st })

def traverseRecurringCompositeType (n : ι) (c : DICompositeType ι) (t : Traversal ι σ) :
    Bool × Traversal ι σ :=
  let (ret, st) := V.visitRecurringCompositeType n c t.callback
  (ret, { t with callback := V.leaveRecurringCompositeType n c st })

section Recursive

-- the traversal of the nodes below
variable (invoke : ι → Traversal ι σ → Option (Bool × Traversal ι σ))

def traverseType (type : Option ι) (t : Traversal ι σ) : Option (Bool × Traversal ι σ) :=
  match type with
  | none   => some (true, t)
  | some n =>
    match V.visitType n t.callback with
    | (false, st) => some (false, { t with callback := st })
    | (true, st)  => invoke n { t with callback := st }

/-- The elements of a composite; what their visits return is ignored. -/
def traverseElements : List ι → Traversal ι σ → Option (Traversal ι σ)
  | [], t      => some t
  | e :: es, t => do
    let (_, t) ← invoke e t
    traverseElements es t

def traverseVariable (n : ι) (type : Option ι) (t : Traversal ι σ) :
    Option (Bool × Traversal ι σ) := do
  let (ret, t) ←
    match V.visitVariable n t.callback with
    | (false, st) => some (false, { t with callback := st })
    | (true, st)  => V.traverseType invoke type { t with callback := st }
  return (ret, { t with callback := V.leaveVariable n t.callback })

def traverseDerivedType (n : ι) (d : DIDerivedType ι) (t : Traversal ι σ) :
    Option (Bool × Traversal ι σ) := do
  let (ret, t) ←
    match V.visitDerivedType n d t.callback with
    | (false, st) => some (false, { t with callback := st })
    | (true, st)  => V.traverseType invoke d.baseType { t with callback := st }
  return (ret, { t with callback := V.leaveDerivedType n d t.callback })

/-- What follows the visit of a composite: the subranges of an array come before its type, the
elements of other composites after it. -/
def traverseBelow (c : DICompositeType ι) (t : Traversal ι σ) : Option (Bool × Traversal ι σ) := do
  let t ← if c.tag = .arrayType then traverseElements invoke c.elements t else some t
  let (ret, t) ← V.traverseType invoke c.baseType t
  if !ret then
    return (false, t)
  let t ← if c.tag ≠ .arrayType then traverseElements invoke c.elements t else some t
  return (true, t)

def traverseCompositeType (n : ι) (c : DICompositeType ι) (t : Traversal ι σ) :
    Option (Bool × Traversal ι σ) :=
  if n ∈ t.visited then some (V.traverseRecurringCompositeType n c t)
  else do
    let visited := if c.tag = .arrayType then t.visited else insert n t.visited
    let (ret, t) ←
      match V.visitCompositeType n c t.callback with
      | (false, st) => some (false, ⟨visited, st⟩)
      | (true, st)  => V.traverseBelow invoke c ⟨visited, st⟩
    return (ret, ⟨t.visited.erase n, V.leaveCompositeType n c t.callback⟩)

end Recursive

/-- `invoke_if_any`, with a bound on how deep the traversal goes. -/
def invokeIfAny (G : DIGraph ι) : ℕ → ι → Traversal ι σ → Option (Bool × Traversal ι σ)
  | 0, _, _ => none
  | fuel + 1, n, t =>
    match G.node n with
    | .basicType b     => some (V.traverseBasicType n b t)
    | .derivedType d   => V.traverseDerivedType (invokeIfAny G fuel) n d t
    | .compositeType c => V.traverseCompositeType (invokeIfAny G fuel) n c t
    | .stringType s    => some (V.traverseStringType n s t)
    | .var type        => V.traverseVariable (invokeIfAny G fuel) n type t
    | .enumerator s    => some (V.traverseNodeOnly n (.enumerator s) t)
    | .subrange count  => some (V.traverseNodeOnly n (.subrange count) t)
    | .subroutineType  => some (V.traverseNodeOnly n .subroutineType t)
    | .subprogram      => some (false, t)
    | .other           => some (false, t)

def traverseNode (G : DIGraph ι) (fuel : ℕ) (n : ι) (st : σ) : Option (Bool × Traversal ι σ) :=
  match G.node n with
  | .var type       => V.traverseVariable (V.invokeIfAny G fuel) n type ⟨∅, st⟩
  | .subroutineType => some (V.traverseNodeOnly n .subroutineType ⟨∅, st⟩)
  | node            =>
    if node.isType then V.traverseType (V.invokeIfAny G fuel) (some n) ⟨∅, st⟩
    else some (V.traverseNodeOnly n node ⟨∅, st⟩)

end DINodeVisitor

/-! ### The tree of a traversal -/

/-- What a traversal visits below a node, if no callback cuts it short. -/
inductive Walk (ι : Type*) where
  | null
  | basic (n : ι) (b : DIBasicType)
  | string (n : ι) (s : DIStringType)
  | node (n : ι) (node : DINode ι)
  | var (n : ι) (type : Walk ι)
  | derived (n : ι) (d : DIDerivedType ι) (base : Walk ι)
  | array (n : ι) (c : DICompositeType ι) (elements : List (Walk ι)) (base : Walk ι)
  | composite (n : ι) (c : DICompositeType ι) (base : Walk ι) (elements : List (Walk ι))
  | recurring (n : ι) (c : DICompositeType ι)
  | skip (n : ι)

/-- The node a walk starts from. -/
def Walk.root : Walk ι → Option ι
  | .null => none
  | .basic n _ | .string n _ | .node n _ | .var n _ | .derived n _ _ | .array n _ _ _
  | .composite n _ _ _ | .recurring n _ | .skip n => some n

mutual
/-- Arrays are walked as arrays, other composites as composites. -/
def Walk.Tagged : Walk ι → Prop
  | .null | .basic _ _ | .string _ _ | .node _ _ | .skip _ => True
  | .var _ type => type.Tagged
  | .derived _ _ base => base.Tagged
  | .array _ c elements base => c.tag = .arrayType ∧ TaggedElements elements ∧ base.Tagged
  | .composite _ c base elements => c.tag ≠ .arrayType ∧ base.Tagged ∧ TaggedElements elements
  | .recurring _ c => c.tag ≠ .arrayType

def TaggedElements : List (Walk ι) → Prop
  | []      => True
  | w :: ws => w.Tagged ∧ TaggedElements ws
end

namespace DIGraph

variable [DecidableEq ι] (G : DIGraph ι)

def walkType (walk : ι → Option (Walk ι)) : Option ι → Option (Walk ι)
  | none   => some .null
  | some n => walk n

def walkElements (walk : ι → Option (Walk ι)) : List ι → Option (List (Walk ι))
  | []      => some []
  | e :: es => do return (← walk e) :: (← walkElements walk es)

/-- The walk below a node while the composites `visited` are open. -/
def walk : ℕ → Finset ι → ι → Option (Walk ι)
  | 0, _, _ => none
  | fuel + 1, visited, n =>
    match G.node n with
    | .basicType b     => some (.basic n b)
    | .derivedType d   => return .derived n d (← walkType (walk fuel visited) d.baseType)
    | .compositeType c =>
      if n ∈ visited then some (.recurring n c)
      else if c.tag = .arrayType then do
        let elements ← walkElements (walk fuel visited) c.elements
        return .array n c elements (← walkType (walk fuel visited) c.baseType)
      else do
        let base ← walkType (walk fuel (insert n visited)) c.baseType
        return .composite n c base (← walkElements (walk fuel (insert n visited)) c.elements)
    | .stringType s    => some (.string n s)
    | .var type        => return .var n (← walkType (walk fuel visited) type)
    | .enumerator s    => some (.node n (.enumerator s))
    | .subrange count  => some (.node n (.subrange count))
    | .subroutineType  => some (.node n .subroutineType)
    | .subprogram      => some (.skip n)
    | .other           => some (.skip n)

end DIGraph

/-! ### The traversal as a recursion over the tree -/

namespace DINodeVisitor

variable (V : DINodeVisitor ι σ)

/-- Visit a type, which may be null. -/
def runType (root : Option ι) (run : σ → Bool × σ) (s : σ) : Bool × σ :=
  match root with
  | none   => (true, s)
  | some n =>
    match V.visitType n s with
    | (false, s) => (false, s)
    | (true, s)  => run s

mutual
def run : Walk ι → σ → Bool × σ
  | .null, s => (true, s)
  | .basic n b, s =>
    let (ret, s) := V.visitBasicType n b s
    (ret, V.leaveBasicType n b s)
  | .string n t, s =>
    let (ret, s) := V.visitStringType n t s
    (ret, V.leaveStringType n t s)
  | .node n node, s =>
    let (ret, s) := V.visitNode n node s
    (ret, V.leaveNode n node s)
  | .var n type, s =>
    let (ret, s) :=
      match V.visitVariable n s with
      | (false, s) => (false, s)
      | (true, s)  => V.runType type.root (run type) s
    (ret, V.leaveVariable n s)
  | .derived n d base, s =>
    let (ret, s) :=
      match V.visitDerivedType n d s with
      | (false, s) => (false, s)
      | (true, s)  => V.runType base.root (run base) s
    (ret, V.leaveDerivedType n d s)
  | .array n c elements base, s =>
    let (ret, s) :=
      match V.visitCompositeType n c s with
      | (false, s) => (false, s)
      | (true, s)  => V.runType base.root (run base) (runElements elements s)
    (ret, V.leaveCompositeType n c s)
  | .composite n c base elements, s =>
    let (ret, s) :=
      match V.visitCompositeType n c s with
      | (false, s) => (false, s)
      | (true, s)  =>
        match V.runType base.root (run base) s with
        | (false, s) => (false, s)
        | (true, s)  => (true, runElements elements s)
    (ret, V.leaveCompositeType n c s)
  | .recurring n c, s =>
    let (ret, s) := V.visitRecurringCompositeType n c s
    (ret, V.leaveRecurringCompositeType n c s)
  | .skip _, s => (false, s)

def runElements : List (Walk ι) → σ → σ
  | [], s      => s
  | w :: ws, s => runElements ws (run w s).2
end

end DINodeVisitor

end Dimeta
