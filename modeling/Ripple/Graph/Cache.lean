import Ripple.Graph.Codec
import Ripple.Store.Basic
import Ripple.Store.Keys

/-!
# The Stored Import Graph

The import graph of the newest snapshot, in a store and in memory. The one in
memory is used as long as it is there; it does not notice what others put in
the store.
-/

namespace Ripple

/-- The graph in memory. -/
abbrev GraphCache := Option ImportGraph

namespace GraphCache

variable {σ : Type} [BlobStore σ]

def load? (store : σ) : Option ImportGraph :=
  Store.readJson? ImportGraph.ofJson? store Keys.graph

def save (g : ImportGraph) : Job (GraphCache × σ) Unit := do
  Job.onSecond (Store.writeJson Keys.graph g.toJson)
  modify fun s => (some g, s.2)

/-- The graph in memory, or else the one in the store, which then is kept in memory. -/
def current (cache : GraphCache) (store : σ) : GraphCache :=
  match cache with
  | some g => some g
  | none => load? store

end GraphCache

end Ripple
