import Dimeta.Core.Recursion
import Dimeta.DI.Candidates

/-!
# Inherited members

A class consists of its own members and of those of its base classes, each placed at the sum of the
offsets on the way to it. The visitor that resolves a byte offset walks through inheritance without
adding these offsets: an inherited member is found where it would be if its class stood alone.
-/

set_option autoImplicit false

namespace Dimeta

variable {ι : Type}

/-! ### Classes -/

namespace DIGraph

variable (G : DIGraph ι)

/-- The byte `b` is in the range of the member `m` of `n`, which starts at byte `B`: a field, the
field of a base class, whose start is moved by the offset of the inheritance, or of a class. -/
inductive Holds (b : ℕ) : ℕ → ι → StructMember ι → Prop
  | field {B : ℕ} {n t : ι} {d : DIDerivedType ι} (hn : G.node n = .derivedType d)
      (hd : d.isField = true) (hb : d.contains B b = true) (ht : d.baseType = some t) :
      Holds b B n ⟨n, t⟩
  | base {B : ℕ} {n t : ι} {d : DIDerivedType ι} {m : StructMember ι}
      (hn : G.node n = .derivedType d) (htag : d.tag = .inheritance) (ht : d.baseType = some t)
      (hm : Holds b (B + d.byteOffset) t m) : Holds b B n m
  | named {B : ℕ} {n t : ι} {d : DIDerivedType ι} {m : StructMember ι}
      (hn : G.node n = .derivedType d) (hd : d.isSugar = true) (ht : d.baseType = some t)
      (hm : Holds b B t m) : Holds b B n m
  | record {B : ℕ} {n e : ι} {c : DICompositeType ι} {m : StructMember ι}
      (hn : G.node n = .compositeType c) (he : e ∈ c.elements) (hm : Holds b B e m) : Holds b B n m

variable {G}

end DIGraph

section OfWalk

variable [DecidableEq ι]

/-! ### Resolving in a hierarchy -/

end OfWalk

/-! ### A pointer in a second base class -/

end Dimeta
