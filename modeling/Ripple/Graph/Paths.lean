/-!
# Paths

All paths from a node to a set of targets that repeat no node, have a
bounded number of edges and pass through no target on their way. They are
listed depth first, in the order of the successors, up to a limit; nothing
is computed beyond the limit.
-/

namespace Ripple

universe u v

/-- The first items of joined lists, up to a limit; each list is computed up to what is left. -/
def flatMapUpTo {α : Type u} {β : Type v} (limit : Nat) (f : α → Nat → List β) : List α → List β
  | [] => []
  | a :: rest =>
    if limit = 0 then []
    else
      let found := f a limit
      found ++ flatMapUpTo (limit - found.length) f rest

/-- The paths that extend a path by a number of edges at most and end in a target, up to a limit.
The path so far is given with its last node first, and the nodes before the last are no
targets. -/
def pathsUpTo (successors : String → List String) (isTarget : String → Bool) :
    Nat → List String → Nat → List (List String)
  | edges, path, limit =>
    match path with
    | [] => []
    | last :: before =>
      if limit = 0 then []
      else if !before.isEmpty && isTarget last then [path.reverse]
      else
        match edges with
        | 0 => []
        | edges + 1 =>
          flatMapUpTo limit
            (fun next rest => pathsUpTo successors isTarget edges (next :: path) rest)
            ((successors last).filter fun next => !path.contains next)

end Ripple
