/-!
References to nodes. A node is known by its graph and by its place in that graph's arena.
-/

namespace Backprop

structure NodeRef where
  graph : Nat
  handle : Nat
deriving DecidableEq, Repr

end Backprop
